import Xv6.Grep.Match
import Xv6.Lib.Effect

/-!
# `grep`

The loop of `grep.c` over the chunks that `read` returns. Memory is seen from `buf`:
index 0 is `buf[0]`, the buffer ends at `sizeof(buf)`, and the memory of the process at
`top`. Other globals lie below and above the buffer; `m` can become negative, and then
`read` stores below it. Every byte that `strchr` looks at is observed together with the
number of bytes that are in the buffer at that moment, and so is every `write`.
-/

namespace Xv6.Grep

open Xv6.Lib Xv6.Lib.Eff

def newline : Byte := 0x0a

/-- `sizeof(buf)`. -/
def BUFSIZE : Int := 1024

structure State where
  mem : Int → Byte
  /-- Bytes in the buffer. -/
  m : Int
  /-- What is left of the file. -/
  input : List Byte
  /-- How many bytes the next calls of `read` return, if there are as many and they fit. -/
  sizes : List Nat

/-- What can be observed of an execution. -/
inductive Obs
  /-- `strchr` looks at byte `i`, with `m` bytes in the buffer. -/
  | look (i m : Int)
  | write (data : List Byte)
  deriving DecidableEq, Repr

/-- The process is killed. -/
inductive Fault
  | pageFault
  deriving DecidableEq, Repr

abbrev M := Eff State Fault Obs

/-- The `n` bytes from `p` on. -/
def bytesAt (mem : Int → Byte) (p : Int) (n : Nat) : List Byte := (List.range n).map fun k : Nat => mem (p + k)

/-- Store the bytes from `p` on. -/
def store (mem : Int → Byte) (p : Int) (data : List Byte) : Int → Byte := fun i =>
  if p ≤ i ∧ i < p + data.length then data.getD (i - p).toNat 0 else mem i

/-- `read(fd, buf+m, sizeof(buf)-m)`: at least one byte, unless there is none or no space. -/
def read : M Nat := do
  let s ← state
  let n := min (max 1 (s.sizes.headD s.input.length)) (min (BUFSIZE - s.m).toNat s.input.length)
  update fun s =>
    { s with mem := store s.mem s.m (s.input.take n), input := s.input.drop n, sizes := s.sizes.tail }
  pure n

/-- `strchr(p, c)`; `left` bytes of the memory of the process begin at `p`. -/
def strchr (c : Byte) : Nat → Int → M (Option Int)
  | left, p => do
    let s ← state
    emit (.look p s.m)
    match left with
    | 0 => fail .pageFault
    | left + 1 =>
      if s.mem p = 0 then pure none
      else if s.mem p = c then pure (some p)
      else strchr c left (p + 1)

/-- The body of the inner loop: the line from `p` to the newline at `q` is written if it matches. `strchr` has not found a
terminator before `q`, so the string that `match` sees ends there. -/
def report (pattern : List Byte) (p q : Int) : M Unit := do
  update fun s => { s with mem := Function.update s.mem q 0 }
  let s ← state
  if matchText pattern (bytesAt s.mem p (q - p).toNat) then do
    update fun s => { s with mem := Function.update s.mem q newline }
    let s ← state
    emit (.write (bytesAt s.mem p (q + 1 - p).toNat))
  else pure ()

/-- The inner loop, over the lines from `p` on; returns the last value of `p`. Every round leaves at least one byte
behind. -/
def lineLoop (pattern : List Byte) (top : Int) : Nat → Int → M Int
  | 0, p => pure p
  | rounds + 1, p => do
    let found ← strchr newline (top - p).toNat p
    match found with
    | none => pure p
    | some q => do
      report pattern p q
      lineLoop pattern top rounds (q + 1)

/-- The outer loop. Every round takes at least one byte of the input. -/
def grepLoop (pattern : List Byte) (top : Int) : Nat → M Unit
  | 0 => pure ()
  | rounds + 1 => do
    let n ← read
    if n = 0 then pure () else do
      update fun s => { s with m := s.m + n }
      let p ← lineLoop pattern top (top.toNat + 1) 0
      (if p = 0 then update fun s => { s with m := 0 } else pure ())
      let s ← state
      (if s.m > 0 then
        update fun s => { s with m := s.m - p, mem := store s.mem 0 (bytesAt s.mem p (s.m - p).toNat) }
      else pure ())
      grepLoop pattern top rounds

/-- `grep(pattern, fd)`. -/
def grep (pattern : List Byte) (top : Int) : M Unit := do
  update fun s => { s with m := 0 }
  let s ← state
  grepLoop pattern top (s.input.length + 1)

/-! ## What `grep` is for -/

/-- The lines that end with a newline. -/
def fullLines (input : List Byte) : List (List Byte) := (input.splitOn newline).dropLast

/-- What should be written. -/
def matching (pattern input : List Byte) : List (List Byte) :=
  ((fullLines input).filter fun line => matchText pattern line).map (· ++ [newline])

/-- What is written. -/
def writes (t : List Obs) : List (List Byte) := t.filterMap fun
  | .write data => some data
  | .look _ _ => none

/-- `grep` returns, has written exactly the lines that match, and looked only at bytes it had read. -/
structure Exact (pattern input : List Byte) (run : Except Fault Unit × State × List Obs) : Prop where
  returns : run.1 = .ok ()
  output : writes run.2.2 = matching pattern input
  confined : ∀ i m, .look i m ∈ run.2.2 → i < m

/-! ## Lines -/

section
variable {s : State} {pattern : List Byte} {p q : Int}

theorem bytesAt_congr {mem mem' : Int → Byte} {n : Nat} (same : ∀ k < n, mem' (p + k) = mem (p + k)) :
    bytesAt mem' p n = bytesAt mem p n :=
  List.map_congr_left fun k member => same k (List.mem_range.1 member)

/-- What the body of the inner loop changes and writes. -/
structure Reported (pattern : List Byte) (p q : Int) (s s' : State) (t : List Obs) : Prop where
  m : s'.m = s.m
  input : s'.input = s.input
  sizes : s'.sizes = s.sizes
  mem : ∀ i, i ≠ q → s'.mem i = s.mem i
  trace : t = if matchText pattern (bytesAt s.mem p (q - p).toNat) then
    [.write (bytesAt s.mem p (q - p).toNat ++ [newline])] else []

theorem report_spec (le : p ≤ q) : succeeds (report pattern p q) (fun _ s' t => Reported pattern p q s s' t) s := by
  have others : ∀ (v : Byte) (i : Int), i ≠ q → Function.update s.mem q v i = s.mem i := fun v i ne =>
    Function.update_of_ne ne ..
  have line : bytesAt (Function.update s.mem q 0) p (q - p).toNat = bytesAt s.mem p (q - p).toNat :=
    bytesAt_congr fun k lt => others 0 _ (by omega)
  refine succeeds_update_bind (succeeds_state_bind ?_)
  rw [line]
  refine succeeds_ite (fun found => ?_) fun missed => ?_
  · refine succeeds_update_bind (succeeds_state_bind (succeeds_emit ?_))
    rw [Function.update_idem]
    refine ⟨rfl, rfl, rfl, others newline, ?_⟩
    have length : (q + 1 - p).toNat = (q - p).toNat + 1 := by omega
    have whole : bytesAt (Function.update s.mem q newline) p (q + 1 - p).toNat =
        bytesAt s.mem p (q - p).toNat ++ [newline] := by
      rw [length, bytesAt, List.range_succ, List.map_append]
      congr 1
      · exact bytesAt_congr fun k lt => others newline _ (by omega)
      · rw [List.map_singleton, show p + ((q - p).toNat : Int) = q by omega, Function.update_self]
    rw [if_pos found, whole]
  · refine succeeds_pure ⟨rfl, rfl, rfl, others 0, ?_⟩
    rw [if_neg missed]

end

/-! ## The byte behind those read -/

section
variable {s : State} {pattern : List Byte} {top p m : Int} {left rounds : Nat} {t t' : List Obs}

/-- A byte that has not been read is looked at. -/
def Beyond (m : Int) (t : List Obs) : Prop := ∃ i, m ≤ i ∧ .look i m ∈ t

theorem Beyond.later (beyond : Beyond m t') : Beyond m (t ++ t') := by
  obtain ⟨i, le, member⟩ := beyond
  exact ⟨i, le, List.mem_append_right _ member⟩

theorem Beyond.before (beyond : Beyond m t) : Beyond m (t ++ t') := by
  obtain ⟨i, le, member⟩ := beyond
  exact ⟨i, le, List.mem_append_left _ member⟩

/-- Without a terminator among the bytes read, `strchr` finds a newline there or goes on behind them. -/
theorem strchr_looks (le : p ≤ s.m) (mapped : s.m ≤ p + left) (nonzero : ∀ i, p ≤ i → i < s.m → s.mem i ≠ 0) :
    yields (strchr newline left p) (fun r s' t => Beyond s.m t ∨ s' = s ∧ ∃ q, r = some q ∧ p ≤ q ∧ q < s.m)
      (fun _ _ t => Beyond s.m t) s := by
  induction left generalizing p with
  | zero =>
    refine yields_state_bind (yields_bind (yields_emit (yields_fail ?_)))
    exact ⟨p, by omega, by simp⟩
  | succ left ih =>
    refine yields_state_bind (yields_bind (yields_emit ?_))
    by_cases last : p = s.m
    · -- the first byte behind those read
      have beyond : Beyond s.m [.look p s.m] := ⟨p, by omega, by simp⟩
      exact yields_anyway (fun _ _ _ => .inl beyond.before) fun _ _ _ => beyond.before
    · have inside : p < s.m := by omega
      refine yields_ite (fun zero => absurd zero (nonzero p (by omega) inside)) fun _ => ?_
      refine yields_ite (fun _ => yields_pure (.inr ⟨rfl, p, rfl, le_refl p, inside⟩)) fun _ => ?_
      refine yields_mono (ih (by omega) (by omega) fun i above below => nonzero i (by omega) below) ?_ fun _ _ _ beyond =>
        beyond.later
      rintro r s' t (beyond | ⟨same, q, found, above, below⟩)
      · exact .inl beyond.later
      · exact .inr ⟨same, q, found, by omega, below⟩

/-- The loop over the lines ends only after a look behind the bytes read. -/
theorem lineLoop_looks (start : 0 ≤ p) (le : p ≤ s.m) (mapped : s.m ≤ top) (enough : (s.m - p).toNat < rounds)
    (nonzero : ∀ i, p ≤ i → i < s.m → s.mem i ≠ 0) :
    yields (lineLoop pattern top rounds p) (fun _ _ t => Beyond s.m t) (fun _ _ t => Beyond s.m t) s := by
  induction rounds generalizing p s with
  | zero => omega
  | succ rounds ih =>
    refine yields_then (strchr_looks le (by omega) nonzero) (fun _ _ _ beyond => beyond) ?_
    rintro r s1 t (beyond | ⟨rfl, q, rfl, above, below⟩)
    · exact yields_anyway (fun _ _ _ => beyond.before) fun _ _ _ => beyond.before
    · refine yields_then (report_spec above).outcome (fun _ _ _ stops => stops.elim) ?_
      intro _ s' t' reported
      -- the bytes behind the line stay as they are
      have rest : ∀ i, q + 1 ≤ i → i < s'.m → s'.mem i ≠ 0 := by
        intro i above' below'
        rw [reported.m] at below'
        rw [reported.mem i (by omega)]
        exact nonzero i (by omega) below'
      have size := reported.m
      have next := ih (by omega) (by omega) (by omega) (by omega) rest
      rw [size] at next
      exact yields_mono next (fun _ _ _ beyond => beyond.later.later) fun _ _ _ beyond => beyond.later.later

/-- How many bytes `read` returns. -/
def State.offer (s : State) : Nat :=
  min (max 1 (s.sizes.headD s.input.length)) (min (BUFSIZE - s.m).toNat s.input.length)

theorem read_spec : succeeds read (fun n s' t => t = [] ∧ n = s.offer ∧
    s' = { s with mem := store s.mem s.m (s.input.take n), input := s.input.drop n, sizes := s.sizes.tail }) s :=
  succeeds_of_run rfl ⟨rfl, rfl, rfl⟩

theorem store_of_mem {mem : Int → Byte} {data : List Byte} {k : Nat} (lt : k < data.length) :
    store mem p data (p + k) = data.getD k 0 := by
  rw [store, if_pos (by omega)]
  congr 1
  omega

theorem grepLoop_looks (start : s.m = 0) (room : BUFSIZE ≤ top) (some : s.input ≠ []) (noNul : 0 ∉ s.input) :
    yields (grepLoop pattern top (rounds + 1)) (fun _ _ t => ∃ m, Beyond m t) (fun _ _ t => ∃ m, Beyond m t) s := by
  have pos : 0 < s.input.length := List.length_pos_iff.2 some
  have few : 0 < s.offer ∧ s.offer ≤ s.input.length ∧ (s.offer : Int) ≤ BUFSIZE := by
    unfold State.offer
    rw [start]
    unfold BUFSIZE
    omega
  refine yields_then read_spec.outcome (fun _ _ _ stops => stops.elim) ?_
  rintro n s1 _ ⟨rfl, rfl, rfl⟩
  rw [if_neg (by omega)]
  refine yields_update_bind ?_
  have nonzero : ∀ i : Int, 0 ≤ i → i < s.m + s.offer → store s.mem s.m (s.input.take s.offer) i ≠ 0 := by
    intro i above below
    obtain ⟨k, rfl⟩ := Int.eq_ofNat_of_zero_le above
    have lt : k < (s.input.take s.offer).length := by
      rw [List.length_take]
      omega
    rw [start, ← Int.zero_add (k : Int), store_of_mem lt, List.getD_eq_getElem _ _ lt]
    intro zero
    exact noNul (zero ▸ List.mem_of_mem_take (List.getElem_mem lt))
  have le : 0 ≤ s.m + s.offer := by omega
  have mapped : s.m + s.offer ≤ top := by omega
  have enough : (s.m + s.offer - 0).toNat < top.toNat + 1 := by omega
  refine yields_then (lineLoop_looks (le_refl 0) le mapped enough nonzero) (fun _ _ _ beyond => ⟨_, beyond⟩) ?_
  intro p s2 t beyond
  exact yields_anyway (fun _ _ _ => ⟨_, beyond.before.later⟩) fun _ _ _ => ⟨_, beyond.before.later⟩

end

/-! ## Input in one piece -/

/-- The bytes lie in memory from `p` on. -/
def Laid (mem : Int → Byte) (p : Int) (data : List Byte) : Prop := ∀ (k : Nat) (lt : k < data.length), mem (p + k) = data[k]

section
variable {s : State} {pattern line rest : List Byte} {mem : Int → Byte} {top p : Int} {left rounds : Nat} {t t' : List Obs}

theorem Laid.cons {a : Byte} (laid : Laid mem p (a :: rest)) : mem p = a ∧ Laid mem (p + 1) rest := by
  have first := laid 0 (Nat.succ_pos _)
  rw [Int.natCast_zero, Int.add_zero, List.getElem_cons_zero] at first
  refine ⟨first, fun k lt => ?_⟩
  have next := laid (k + 1) (by simpa using lt)
  rw [List.getElem_cons_succ] at next
  rw [← next]
  congr 1
  push_cast
  omega

theorem Laid.append {data : List Byte} (laid : Laid mem p (data ++ rest)) :
    Laid mem p data ∧ Laid mem (p + data.length) rest := by
  refine ⟨fun k lt => ?_, fun k lt => ?_⟩
  · rw [laid k (by rw [List.length_append]; omega), List.getElem_append_left lt]
  · have later := laid (data.length + k) (by rw [List.length_append]; omega)
    rw [List.getElem_append_right (by omega)] at later
    simp only [Nat.add_sub_cancel_left] at later
    rw [← later]
    congr 1
    push_cast
    omega

theorem Laid.bytesAt (laid : Laid mem p rest) : bytesAt mem p rest.length = rest := by
  refine List.ext_getElem (by simp [Grep.bytesAt]) fun k h h' => ?_
  simp only [Grep.bytesAt, List.getElem_map, List.getElem_range]
  exact laid k h'

theorem writes_append : writes (t ++ t') = writes t ++ writes t' := List.filterMap_append ..

/-- `strchr` goes over a line and stops at what ends it. -/
theorem strchr_spec (laid : Laid s.mem p line) (noNul : 0 ∉ line) (noNewline : newline ∉ line) (mapped : line.length < left)
    (ends : s.mem (p + line.length) = 0 ∨ s.mem (p + line.length) = newline) :
    succeeds (strchr newline left p) (fun r s' t => s' = s ∧ writes t = [] ∧
      r = if s.mem (p + line.length) = 0 then none else some (p + line.length)) s := by
  induction line generalizing p left with
  | nil =>
    obtain ⟨left, rfl⟩ : ∃ n, left = n + 1 := ⟨left - 1, by simp at mapped; omega⟩
    simp only [List.length_nil, Int.natCast_zero, Int.add_zero] at ends ⊢
    refine succeeds_state_bind (succeeds_then (succeeds_emit (Q := fun _ s' t => s' = s ∧ t = [.look p s.m]) ⟨rfl, rfl⟩) ?_)
    rintro _ _ _ ⟨rfl, rfl⟩
    refine succeeds_ite (fun zero => ?_) fun used => ?_
    · exact succeeds_pure ⟨rfl, rfl, (if_pos zero).symm⟩
    · rw [if_pos (ends.resolve_left used)]
      exact succeeds_pure ⟨rfl, rfl, (if_neg used).symm⟩
  | cons a line ih =>
    obtain ⟨left, rfl⟩ : ∃ n, left = n + 1 := ⟨left - 1, by simp at mapped; omega⟩
    obtain ⟨here, laid'⟩ := laid.cons
    have place : p + ((a :: line).length : Int) = p + 1 + line.length := by
      rw [List.length_cons]
      push_cast
      omega
    rw [place] at ends ⊢
    have notZero : a ≠ 0 := fun zero => noNul (zero ▸ List.mem_cons_self)
    have notNewline : a ≠ newline := fun same => noNewline (same ▸ List.mem_cons_self)
    refine succeeds_state_bind (succeeds_then (succeeds_emit (Q := fun _ s' t => s' = s ∧ t = [.look p s.m]) ⟨rfl, rfl⟩) ?_)
    rintro _ _ _ ⟨rfl, rfl⟩
    rw [here, if_neg notZero, if_neg notNewline]
    refine succeeds_mono (ih laid' (fun member => noNul (List.mem_cons_of_mem _ member))
      (fun member => noNewline (List.mem_cons_of_mem _ member)) (by simpa using mapped) ends) ?_
    rintro r s' t ⟨same, silent, found⟩
    exact ⟨same, by rw [writes_append, silent]; rfl, found⟩

theorem fullLines_last (noNewline : newline ∉ line) : fullLines line = [] := by
  rw [fullLines, List.splitOn_eq_singleton noNewline]
  rfl

theorem fullLines_cons (noNewline : newline ∉ line) : fullLines (line ++ newline :: rest) = line :: fullLines rest := by
  have others : ∀ a ∈ line, (a == newline) = false := fun a member =>
    beq_eq_false_iff_ne.2 fun same => noNewline (same ▸ member)
  have first : (line ++ newline :: rest).splitOn newline = line :: rest.splitOn newline :=
    List.splitOnP_append_cons_of_forall_mem others newline (beq_self_eq_true newline) rest
  rw [fullLines, first, List.dropLast_cons_of_ne_nil (List.splitOn_ne_nil _ _)]
  rfl

theorem matching_cons (noNewline : newline ∉ line) : matching pattern (line ++ newline :: rest) =
    (if matchText pattern line then [line ++ [newline]] else []) ++ matching pattern rest := by
  rw [matching, fullLines_cons noNewline, List.filter_cons]
  split
  · rfl
  · rfl

/-- What the inner loop does with bytes that a terminator follows. -/
theorem lineLoop_exact (laid : Laid s.mem p rest) (noNul : 0 ∉ rest) (ends : s.mem (p + rest.length) = 0)
    (mapped : p + rest.length < top) (enough : rest.length < rounds) :
    succeeds (lineLoop pattern top rounds p) (fun _ s' t => writes t = matching pattern rest ∧ s'.input = s.input) s := by
  induction rounds generalizing rest p s with
  | zero => omega
  | succ rounds ih =>
    by_cases last : newline ∉ rest
    · refine succeeds_then (strchr_spec laid noNul last (by omega) (.inl ends)) ?_
      rintro r s1 t ⟨rfl, silent, rfl⟩
      rw [if_pos ends]
      refine succeeds_pure ⟨?_, rfl⟩
      rw [List.append_nil, silent, matching, fullLines_last last]
      rfl
    · obtain ⟨line, rest', rfl, noNewline⟩ := List.eq_append_cons_of_mem (not_not.1 last)
      obtain ⟨laid1, laid2⟩ := laid.append
      obtain ⟨ender, laid3⟩ := laid2.cons
      have length : ((line ++ newline :: rest').length : Int) = line.length + 1 + rest'.length := by
        rw [List.length_append, List.length_cons]
        push_cast
        omega
      rw [length] at ends mapped
      have noNul' : 0 ∉ line ∧ 0 ∉ rest' := by
        simp only [List.mem_append, List.mem_cons, not_or] at noNul
        exact ⟨noNul.1, noNul.2.2⟩
      refine succeeds_then (strchr_spec laid1 noNul'.1 noNewline (by omega) (.inr ender)) ?_
      rintro r s1 t ⟨rfl, silent, rfl⟩
      rw [if_neg (by rw [ender]; decide)]
      refine succeeds_then (report_spec (by omega)) ?_
      intro _ s2 t' reported
      have laid' : Laid s2.mem (p + line.length + 1) rest' := fun k lt => by
        rw [reported.mem _ (by omega)]
        exact laid3 k lt
      have ends' : s2.mem (p + line.length + 1 + rest'.length) = 0 := by
        rw [reported.mem _ (by omega), ← ends]
        congr 1
        omega
      have shorter : rest'.length < rounds := by
        rw [List.length_append, List.length_cons] at enough
        omega
      refine succeeds_mono (ih laid' noNul'.2 ends' (by omega) shorter) ?_
      rintro _ s' t'' ⟨output, input⟩
      refine ⟨?_, input.trans reported.input⟩
      have text : bytesAt s1.mem p (p + line.length - p).toNat = line := by
        rw [show (p + line.length - p).toNat = line.length by omega]
        exact laid1.bytesAt
      rw [writes_append, writes_append, silent, output, matching_cons noNewline, reported.trace, text]
      split
      · rfl
      · rfl

/-- At the end of the input the loop stops. -/
theorem grepLoop_done (nothing : s.input = []) : succeeds (grepLoop pattern top rounds) (fun _ _ t => t = []) s := by
  cases rounds with
  | zero => exact succeeds_pure rfl
  | succ rounds =>
    refine succeeds_then read_spec ?_
    rintro n s' _ ⟨rfl, size, -⟩
    rw [if_pos (by rw [size, State.offer, nothing]; simp)]
    exact succeeds_pure rfl

/-- Input that comes in one piece, with a zero byte behind it in the buffer, is searched correctly. -/
theorem grep_one_piece (room : BUFSIZE ≤ top) (noNul : 0 ∉ s.input) (fits : (s.input.length : Int) < BUFSIZE)
    (piece : s.sizes = []) (ends : s.mem s.input.length = 0) :
    succeeds (grep pattern top) (fun _ _ t => writes t = matching pattern s.input) s := by
  refine succeeds_update_bind (succeeds_state_bind ?_)
  by_cases empty : s.input = []
  · refine succeeds_mono (grepLoop_done empty) ?_
    rintro _ s' _ rfl
    rw [matching, empty, fullLines_last (by simp)]
    rfl
  · have pos : 0 < s.input.length := List.length_pos_iff.2 empty
    have all : ({ s with m := 0 } : State).offer = s.input.length := by
      rw [State.offer, piece]
      show min (max 1 s.input.length) (min (BUFSIZE - 0).toNat s.input.length) = s.input.length
      unfold BUFSIZE at *
      omega
    refine succeeds_then read_spec ?_
    rintro n s1 _ ⟨rfl, size, rfl⟩
    rw [all] at size
    subst size
    rw [if_neg (by omega), List.take_length, List.drop_length]
    refine succeeds_update_bind ?_
    have laid : Laid (store s.mem 0 s.input) 0 s.input := fun k lt => by
      rw [store_of_mem lt, List.getD_eq_getElem _ _ lt]
    have ends' : store s.mem 0 s.input (0 + s.input.length) = 0 := by
      rw [store, if_neg (by omega), Int.zero_add]
      exact ends
    refine succeeds_then (lineLoop_exact laid noNul ends' (by omega) (by omega)) ?_
    rintro p s2 t ⟨output, consumed⟩
    refine succeeds_then (Q := fun _ s3 t => s3.input = [] ∧ t = []) (succeeds_ite (fun _ => ?_) fun _ => ?_) ?_
    · exact succeeds_of_run rfl ⟨consumed, rfl⟩
    · exact succeeds_pure ⟨consumed, rfl⟩
    rintro _ s3 _ ⟨consumed3, rfl⟩
    refine succeeds_state_bind (succeeds_then (Q := fun _ s4 t => s4.input = [] ∧ t = [])
      (succeeds_ite (fun _ => ?_) fun _ => ?_) ?_)
    · exact succeeds_of_run rfl ⟨consumed3, rfl⟩
    · exact succeeds_pure ⟨consumed3, rfl⟩
    rintro _ s4 _ ⟨consumed4, rfl⟩
    refine succeeds_mono (grepLoop_done consumed4) ?_
    rintro _ s5 _ rfl
    simp only [List.nil_append, List.append_nil]
    exact output

end

/-- The lines `b`, `a` and `ca`. -/
def threeLines : List Byte := [0x62, newline, 0x61, newline, 0x63, 0x61, newline]

/-- `grep a` writes the second and the third. -/
theorem grep_one_piece_lines : matching [0x61] threeLines = [[0x61, newline], [0x63, 0x61, newline]] ∧
    succeeds (grep [0x61] 2048) (fun _ _ t => writes t = matching [0x61] threeLines) ⟨fun _ => 0, 0, threeLines, []⟩ :=
  ⟨by decide, grep_one_piece (s := ⟨fun _ => 0, 0, threeLines, []⟩) (by decide) (by decide) (by decide) rfl rfl⟩

/-- `grep` is exact only on empty input: after the last line it has read, `strchr` goes on to the next byte of the buffer,
which nothing has been read into. -/
theorem grep_exact_iff (pattern input : List Byte) (sizes : List Nat) (mem : Int → Byte) (top m : Int) (room : BUFSIZE ≤ top)
    (noNul : 0 ∉ input) : Exact pattern input (grep pattern top ⟨mem, m, input, sizes⟩) ↔ input = [] := by
  constructor
  · intro exact
    by_contra some
    have looks : yields (grep pattern top) (fun _ _ t => ∃ n, Beyond n t) (fun _ _ t => ∃ n, Beyond n t)
        ⟨mem, m, input, sizes⟩ :=
      yields_update_bind (yields_state_bind (grepLoop_looks rfl room some noNul))
    obtain ⟨n, i, le, member⟩ : ∃ n, Beyond n (grep pattern top ⟨mem, m, input, sizes⟩).2.2 := by
      unfold yields at looks
      generalize grep pattern top ⟨mem, m, input, sizes⟩ = run at looks ⊢
      obtain ⟨_ | _, s', t⟩ := run
      · exact looks
      · exact looks
    exact absurd (exact.confined i n member) (by omega)
  · rintro rfl
    have silent : succeeds (grep pattern top) (fun _ _ t => t = []) ⟨mem, m, [], sizes⟩ :=
      succeeds_update_bind (succeeds_state_bind (grepLoop_done rfl))
    obtain ⟨_, s', _, run, rfl⟩ := silent.exists
    rw [run]
    exact ⟨rfl, rfl, by simp⟩

/-- On a single line `grep` looks beyond what it has read. -/
theorem grep_exact_iff_line : BUFSIZE ≤ 2048 ∧ (0 : Byte) ∉ [0x61, newline] ∧
    ¬ Exact [0x61] [0x61, newline] (grep [0x61] 2048 ⟨fun _ => 0, 0, [0x61, newline], []⟩) := by
  refine ⟨by decide, by decide, fun exact => ?_⟩
  have empty := (grep_exact_iff [0x61] [0x61, newline] [] (fun _ => 0) 2048 0 (by decide) (by decide)).1 exact
  cases empty

/-- The line `ab` is read in two pieces: the first of them is dropped, and nothing is written. -/
theorem grep_loses_line : (grep [0x61, 0x62] 2048 ⟨fun _ => 0, 0, [0x61, 0x62, newline], [1, 2]⟩).1 = .ok () ∧
    writes (grep [0x61, 0x62] 2048 ⟨fun _ => 0, 0, [0x61, 0x62, newline], [1, 2]⟩).2.2 = [] ∧
    matching [0x61, 0x62] [0x61, 0x62, newline] = [[0x61, 0x62, newline]] := by
  decide +kernel

end Xv6.Grep
