import Xv6.Shell.Grammar

/-!
# The parser follows the grammar

Two inductions. Over a derivation: a routine given the tokens of a tree, and then
something that can follow it, returns the command of the tree and stops where the tree
ends. Over the depth: a routine that is given enough depth ends, and if it does not panic
it has read the tokens of a tree. The depth that `parsecmd` allows, four for every byte of
the line, is enough.
-/

namespace Xv6.Shell

section
variable {s : List Byte} {k : List Token} {t : Token} {depth depth' argc : Nat} {cmd ret : Cmd}

/-! ## Looking ahead -/

theorem peek_pair (s toks : List Byte) : peek s toks = ((peek s toks).1, skip s) := rfl

theorem peek_nil (none : tokens s = []) {toks : List Byte} (sub : ∀ c ∈ toks, c ∈ symbols) :
    peek s toks = (false, skip s) := by
  rw [peek_pair, peek_eq s sub, none]
  rfl

theorem peek_cons (read : tokens s = t :: k) {toks : List Byte} (sub : ∀ c ∈ toks, c ∈ symbols) :
    peek s toks = (t.symbol?.any fun c => decide (c ∈ toks), skip s) := by
  rw [peek_pair, peek_eq s sub, read]
  rfl

theorem peek_redir (noRedir : NoRedir (tokens s)) : peek s [lt, gt] = (false, skip s) := by
  cases read : tokens s with
  | nil => exact peek_nil read (by simp [symbols])
  | cons t k =>
    rw [read, noRedir_cons] at noRedir
    rw [peek_cons read (by simp [symbols])]
    cases t <;> first | rfl | simp at noRedir

/-- The token that `peek` has found, taken. -/
theorem gettoken_skip (read : tokens s = t :: k) : (gettoken (skip s)).ret = t.ret ∧ tokens (gettoken (skip s)).ps = k ∧
    (∀ w, t = .word w → ⟨(gettoken (skip s)).q, (gettoken (skip s)).eq⟩ = w) ∧
    (gettoken (skip s)).ps.length < s.length := by
  obtain ⟨ret, rest, word, short⟩ := gettoken_cons ((tokens_skip s).trans read)
  exact ⟨ret, rest, word, Nat.lt_of_lt_of_le short (skip_length s)⟩

/-! ## Derivations are read -/

theorem redirFor_ret (r : Redir) (cmd : Cmd) : redirFor r.op.token.ret cmd r.file = Redir.around cmd r := by
  unfold Redir.around
  cases r.op <;> rfl

theorem parseredirs_reads (rs : List Redir) (depth : Nat) (cmd : Cmd) (read : tokens s = rs.flatMap Redir.toks ++ k)
    (after : NoRedir k) (enough : s.length < depth) :
    ∃ s', parseredirs depth cmd s = done (rs.foldl Redir.around cmd) s' ∧ tokens s' = k ∧ s'.length ≤ s.length := by
  induction rs generalizing s cmd depth with
  | nil =>
    obtain ⟨depth, rfl⟩ := Nat.exists_eq_add_one_of_ne_zero (Nat.ne_of_gt (Nat.zero_lt_of_lt enough))
    rw [List.flatMap_nil, List.nil_append] at read
    refine ⟨skip s, ?_, (tokens_skip s).trans read, skip_length s⟩
    rw [parseredirs, peek_redir (read ▸ after)]
    rfl
  | cons r rs ih =>
    obtain ⟨depth, rfl⟩ := Nat.exists_eq_add_one_of_ne_zero (Nat.ne_of_gt (Nat.zero_lt_of_lt enough))
    simp only [List.flatMap_cons, Redir.toks, List.cons_append, List.nil_append] at read
    have more : peek s [lt, gt] = (true, skip s) := by
      rw [peek_cons read (by simp [symbols])]
      cases r.op <;> rfl
    obtain ⟨op, rest, _, short⟩ := gettoken_skip read
    obtain ⟨word, rest, file, short'⟩ := gettoken_cons rest
    obtain ⟨s', parsed, read', short''⟩ := ih depth (Redir.around cmd r) rest (by omega)
    refine ⟨s', ?_, read', by omega⟩
    rw [parseredirs, more]
    simp only [if_true]
    rw [if_neg (show ¬ _ ≠ letterA from not_not.2 word), op, file r.file rfl, redirFor_ret]
    exact parsed

/-- What a part of a simple command does to the command that is built. -/
def Item.apply (cmd : Cmd) : Item → Cmd
  | word w => cmd.pushArg w
  | redir r => Redir.around cmd r

theorem pushArg_around (cmd : Cmd) (r : Redir) (w : Word) :
    (Redir.around cmd r).pushArg w = Redir.around (cmd.pushArg w) r := by
  unfold Redir.around
  cases r.op <;> rfl

theorem pushArg_foldl (rs : List Redir) (cmd : Cmd) (w : Word) :
    (rs.foldl Redir.around cmd).pushArg w = rs.foldl Redir.around (cmd.pushArg w) := by
  induction rs generalizing cmd with
  | nil => rfl
  | cons r rs ih => rw [List.foldl_cons, ih, pushArg_around, List.foldl_cons]

/-- Filling the arguments and wrapping the redirections in source order gives the command of the whole. -/
theorem foldl_apply (items : List Item) (rs : List Redir) (argv : List Word) :
    items.foldl Item.apply (rs.foldl Redir.around (.exec argv)) =
      (rs ++ redirs items).foldl Redir.around (.exec (argv ++ words items)) := by
  induction items generalizing rs argv with
  | nil => simp [redirs, words]
  | cons i items ih =>
    cases i with
    | word w =>
      rw [List.foldl_cons, Item.apply, pushArg_foldl, Cmd.pushArg, ih]
      simp [redirs, words, List.filterMap_cons, Item.word?, Item.redir?]
    | redir r =>
      have one : Redir.around (rs.foldl Redir.around (.exec argv)) r = (rs ++ [r]).foldl Redir.around (.exec argv) := by
        rw [List.foldl_append, List.foldl_cons, List.foldl_nil]
      rw [List.foldl_cons, Item.apply, one, ih]
      simp [redirs, words, List.filterMap_cons, Item.word?, Item.redir?]

theorem noRedir_words {items : List Item} (w : Word) :
    NoRedir ((Item.word w :: items).flatMap Item.toks ++ k) := by
  simp [Item.toks, noRedir_cons]

theorem peek_stop (read : tokens s = t :: k) (stops : t ∈ [Token.rpar, .amp, .semi, .bar]) :
    peek s [bar, rpar, amp, semi] = (true, skip s) := by
  rw [peek_cons read (by simp [symbols])]
  simp only [List.mem_cons, List.not_mem_nil, or_false] at stops
  rcases stops with rfl | rfl | rfl | rfl <;> rfl

/-- The loops of a simple command, from between two of its parts. -/
theorem parseargs_reads {items : List Item} (depth depth' argc : Nat) (ret : Cmd)
    (read : tokens s = items.flatMap Item.toks ++ k) (after : AfterExec k) (few : argc + (words items).length < MAXARGS)
    (enough : s.length < depth) (enough' : s.length < depth') :
    ∃ s', ((parseredirs depth ret s).andThen fun ret s => parseargs depth' argc ret s) =
      done (items.foldl Item.apply ret) s' ∧ tokens s' = k ∧ s'.length ≤ s.length := by
  induction items generalizing s depth depth' argc ret with
  | nil =>
    obtain ⟨depth', rfl⟩ := Nat.exists_eq_add_one_of_ne_zero (Nat.ne_of_gt (Nat.zero_lt_of_lt enough'))
    rw [List.flatMap_nil, List.nil_append] at read
    obtain ⟨s1, none, read1, short1⟩ := parseredirs_reads [] depth ret (by simpa using read) after.noRedir enough
    rw [none]
    simp only [List.foldl_nil, done_andThen]
    rw [parseargs]
    cases next : tokens s1 with
    | nil =>
      obtain ⟨zero, ends⟩ := gettoken_nil ((tokens_skip s1).trans next)
      rw [peek_nil next (by simp [symbols])]
      refine ⟨[], ?_, ?_, by simp⟩
      · simp [zero, ends]
      · rw [← read1, next]
        rfl
    | cons t k' =>
      rw [peek_stop next (after t (by rw [← read1, next]; rfl))]
      exact ⟨skip s1, rfl, by rw [tokens_skip, read1], Nat.le_trans (skip_length s1) short1⟩
  | cons i items ih =>
    cases i with
    | word w =>
      obtain ⟨depth', rfl⟩ := Nat.exists_eq_add_one_of_ne_zero (Nat.ne_of_gt (Nat.zero_lt_of_lt enough'))
      obtain ⟨s1, none, read1, short1⟩ := parseredirs_reads [] depth ret (by simpa using read)
        (noRedir_words w) enough
      rw [none]
      simp only [List.foldl_nil, done_andThen]
      have read1 : tokens s1 = .word w :: (items.flatMap Item.toks ++ k) := by simpa [Item.toks] using read1
      obtain ⟨ret1, rest, word, short⟩ := gettoken_skip read1
      have few' : argc + 1 + (words items).length < MAXARGS := by
        simp [words, Item.word?] at few
        simp [words]
        omega
      obtain ⟨s', parsed, read', short'⟩ := ih depth' depth' (argc + 1) (ret.pushArg w) rest few' (by omega) (by omega)
      refine ⟨s', ?_, read', by omega⟩
      have nonzero : letterA ≠ 0 := by decide
      rw [parseargs, peek_cons read1 (by simp [symbols])]
      simp only [Token.symbol?, Option.any_none, Bool.false_eq_true, if_false, ret1, Token.ret, nonzero, ne_eq,
        not_true_eq_false]
      rw [if_neg (by omega), word w rfl]
      exact parsed
    | redir r =>
      obtain ⟨depth, rfl⟩ := Nat.exists_eq_add_one_of_ne_zero (Nat.ne_of_gt (Nat.zero_lt_of_lt enough))
      have read : tokens s = r.op.token :: .word r.file :: (items.flatMap Item.toks ++ k) := by
        simpa [Item.toks, Redir.toks] using read
      obtain ⟨op, rest, _, short⟩ := gettoken_skip read
      obtain ⟨word, rest', file, short'⟩ := gettoken_cons rest
      have few' : argc + (words items).length < MAXARGS := by
        simpa [words, List.filterMap_cons, Item.word?] using few
      obtain ⟨s', parsed, read', short''⟩ := ih depth depth' argc (Redir.around ret r) rest' few' (by omega) (by omega)
      refine ⟨s', ?_, read', by omega⟩
      have more : peek s [lt, gt] = (true, skip s) := by
        rw [peek_cons read (by simp [symbols])]
        cases r.op <;> rfl
      rw [parseredirs, more]
      simp only [if_true]
      rw [if_neg (show ¬ _ ≠ letterA from not_not.2 word), op, file r.file rfl, redirFor_ret]
      exact parsed

theorem parsebacks_reads {n : Nat} (depth : Nat) (cmd : Cmd) (read : tokens s = List.replicate n .amp ++ k)
    (after : k.head? ≠ some .amp) (enough : s.length < depth) :
    ∃ s', parsebacks depth cmd s = done (Cmd.back^[n] cmd) s' ∧ tokens s' = k ∧ s'.length ≤ s.length := by
  induction n generalizing s depth cmd with
  | zero =>
    obtain ⟨depth, rfl⟩ := Nat.exists_eq_add_one_of_ne_zero (Nat.ne_of_gt (Nat.zero_lt_of_lt enough))
    rw [List.replicate_zero, List.nil_append] at read
    have stop : peek s [amp] = (false, skip s) := by
      cases next : tokens s with
      | nil => exact peek_nil next (by simp [symbols])
      | cons t k' =>
        rw [← read, next] at after
        rw [peek_cons next (by simp [symbols])]
        cases t <;> first | rfl | simp at after
    refine ⟨skip s, ?_, (tokens_skip s).trans read, skip_length s⟩
    rw [parsebacks, stop]
    rfl
  | succ n ih =>
    obtain ⟨depth, rfl⟩ := Nat.exists_eq_add_one_of_ne_zero (Nat.ne_of_gt (Nat.zero_lt_of_lt enough))
    rw [List.replicate_succ, List.cons_append] at read
    obtain ⟨_, rest, _, short⟩ := gettoken_skip read
    obtain ⟨s', parsed, read', short'⟩ := ih depth (.back cmd) rest (by omega)
    refine ⟨s', ?_, read', by omega⟩
    rw [parsebacks, peek_cons read (by simp [symbols])]
    exact parsed

end

/-- A routine reads the tokens of a tree and stops there. -/
def Reads (r : Result Cmd) (cmd : Cmd) (s : List Byte) (k : List Token) : Prop :=
  ∃ s', r = done cmd s' ∧ tokens s' = k ∧ s'.length ≤ s.length

mutual

theorem Line.reads {k : List Token} (after : AfterLine k) : (l : Line) → (s : List Byte) → (depth : Nat) →
    tokens s = l.toks ++ k → 4 * s.length + 4 ≤ depth → Reads (parseline depth s) l.cmd s k
  | .last p n, s, depth + 1, read, enough => by
    simp only [Line.toks, List.append_assoc] at read
    obtain ⟨s1, parsed1, read1, short1⟩ := Pipe.reads (.amps after) p s depth read (by omega)
    obtain ⟨s2, parsed2, read2, short2⟩ := parsebacks_reads depth p.cmd read1 after.ne_amp (by omega)
    refine ⟨skip s2, ?_, (tokens_skip s2).trans read2, ?_⟩
    · have stop : peek s2 [semi] = (false, skip s2) := by
        cases next : tokens s2 with
        | nil => exact peek_nil next (by simp [symbols])
        | cons t k' =>
          have head := after t (by rw [← read2, next]; rfl)
          rw [peek_cons next (by simp [symbols])]
          rw [List.mem_singleton.1 head]
          rfl
      rw [parseline, parsed1, done_andThen, parsed2, done_andThen, stop]
      rfl
    · have := skip_length s2
      omega
  | .seq p n l, s, depth + 1, read, enough => by
    simp only [Line.toks, List.append_assoc, List.cons_append] at read
    obtain ⟨s1, parsed1, read1, short1⟩ := Pipe.reads (.amps_semi _ _) p s depth read (by omega)
    obtain ⟨s2, parsed2, read2, short2⟩ := parsebacks_reads depth p.cmd read1 (by simp) (by omega)
    obtain ⟨_, rest, _, short3⟩ := gettoken_skip read2
    obtain ⟨s', parsed', read', short'⟩ := Line.reads after l _ depth rest (by omega)
    refine ⟨s', ?_, read', by omega⟩
    rw [parseline, parsed1, done_andThen, parsed2, done_andThen, peek_cons read2 (by simp [symbols])]
    show ((parseline depth (gettoken (skip s2)).ps).andThen fun right s => done (Cmd.list _ right) s) = _
    rw [parsed', done_andThen]
    rfl

theorem Pipe.reads {k : List Token} (after : AfterPipe k) : (p : Pipe) → (s : List Byte) → (depth : Nat) →
    tokens s = p.toks ++ k → 4 * s.length + 3 ≤ depth → Reads (parsepipe depth s) p.cmd s k
  | .last e, s, depth + 1, read, enough => by
    simp only [Pipe.toks] at read
    obtain ⟨s1, parsed1, read1, short1⟩ := Exec.reads after.exec e s depth read (by omega)
    refine ⟨skip s1, ?_, (tokens_skip s1).trans read1, ?_⟩
    · have stop : peek s1 [bar] = (false, skip s1) := by
        cases next : tokens s1 with
        | nil => exact peek_nil next (by simp [symbols])
        | cons t k' =>
          have head := after t (by rw [← read1, next]; rfl)
          simp only [List.mem_cons, List.not_mem_nil, or_false] at head
          rw [peek_cons next (by simp [symbols])]
          rcases head with rfl | rfl | rfl <;> rfl
      rw [parsepipe, parsed1, done_andThen, stop]
      rfl
    · have := skip_length s1
      omega
  | .seq e p, s, depth + 1, read, enough => by
    simp only [Pipe.toks, List.append_assoc, List.cons_append] at read
    obtain ⟨s1, parsed1, read1, short1⟩ := Exec.reads (by simp [startsWith_cons]) e s depth read (by omega)
    obtain ⟨_, rest, _, short2⟩ := gettoken_skip read1
    obtain ⟨s', parsed', read', short'⟩ := Pipe.reads after p _ depth rest (by omega)
    refine ⟨s', ?_, read', by omega⟩
    rw [parsepipe, parsed1, done_andThen, peek_cons read1 (by simp [symbols])]
    show ((parsepipe depth (gettoken (skip s1)).ps).andThen fun right s => done (Cmd.pipe _ right) s) = _
    rw [parsed', done_andThen]
    rfl

theorem Exec.reads {k : List Token} (after : AfterExec k) : (e : Exec) → (s : List Byte) → (depth : Nat) →
    tokens s = e.toks ++ k → 4 * s.length + 2 ≤ depth → Reads (parseexec depth s) e.cmd s k
  | .block l rs, s, depth + 2, read, enough => by
    simp only [Exec.toks, List.append_assoc, List.cons_append] at read
    have opens : peek s [lpar] = (true, skip s) := by
      rw [peek_cons read (by simp [symbols])]
      rfl
    have opens' : peek (skip s) [lpar] = (true, skip (skip s)) := by
      rw [peek_cons ((tokens_skip s).trans read) (by simp [symbols])]
      rfl
    obtain ⟨_, rest, _, short⟩ := gettoken_skip ((tokens_skip s).trans read)
    have := skip_length s
    obtain ⟨s1, parsed1, read1, short1⟩ := Line.reads (by simp [startsWith_cons]) l _ depth rest (by omega)
    obtain ⟨_, rest1, _, short2⟩ := gettoken_skip read1
    obtain ⟨s', parsed', read', short'⟩ := parseredirs_reads rs depth l.cmd rest1 after.noRedir (by omega)
    refine ⟨s', ?_, read', by omega⟩
    rw [parseexec, opens]
    simp only [if_true]
    rw [parseblock, opens']
    simp only [Bool.true_eq_false, if_false]
    rw [parsed1, done_andThen, peek_cons read1 (by simp [symbols])]
    exact parsed'
  | .simple items few, s, depth + 1, read, enough => by
    simp only [Exec.toks] at read
    have stop : peek s [lpar] = (false, skip s) := by
      have head := items_head items after
      cases next : tokens s with
      | nil => exact peek_nil next (by simp [symbols])
      | cons t k' =>
        rw [← read, next] at head
        rw [peek_cons next (by simp [symbols])]
        cases t <;> first | rfl | simp at head
    have := skip_length s
    obtain ⟨s', parsed', read', short'⟩ := parseargs_reads depth depth 0 (.exec []) ((tokens_skip s).trans read) after
      (by omega) (by omega) (by omega)
    refine ⟨s', ?_, read', by omega⟩
    rw [parseexec, stop]
    simp only [Bool.false_eq_true, if_false]
    rw [parsed']
    have built := foldl_apply items [] []
    simp only [List.foldl_nil, List.nil_append] at built
    rw [built]
    rfl

end

/-! ## What is read is a derivation -/

section
variable {s : List Byte} {k : List Token} {cmd ret : Cmd}

theorem peek_true {toks : List Byte} (sub : ∀ c ∈ toks, c ∈ symbols) (found : (peek s toks).1 = true) :
    ∃ t k, tokens s = t :: k ∧ ∃ c ∈ toks, t.symbol? = some c := by
  rw [peek_eq s sub, Option.any_eq_true] at found
  obtain ⟨c, first, member⟩ := found
  obtain ⟨t, head, symbol⟩ := Option.bind_eq_some_iff.1 first
  obtain ⟨k, is⟩ := List.head?_eq_some_iff.1 head
  exact ⟨t, k, is, c, of_decide_eq_true member, symbol⟩

theorem peek_symbol {c : Byte} (symbol : c ∈ symbols) (single : c ≠ gt) (found : (peek s [c]).1 = true) :
    ∃ k, tokens s = Token.ofSymbol c :: k := by
  obtain ⟨t, k, is, d, member, first⟩ := peek_true (by simpa using symbol) found
  obtain rfl := List.mem_singleton.1 member
  refine ⟨k, ?_⟩
  rw [is]
  cases t <;> simp [Token.symbol?, Token.ret] at first <;> subst first <;> first | rfl | simp at single

theorem peek_op (found : (peek s [lt, gt]).1 = true) : ∃ (op : RedirOp) (k : List Token), tokens s = op.token :: k := by
  obtain ⟨t, k, is, c, member, first⟩ := peek_true (by simp [symbols]) found
  cases t with
  | lt => exact ⟨.input, k, is⟩
  | gt => exact ⟨.output, k, is⟩
  | append => exact ⟨.append, k, is⟩
  | word w => cases first
  | _ =>
    cases first
    exact absurd member (by decide)

theorem gettoken_word (word : (gettoken s).ret = letterA) : ∃ w k, tokens s = .word w :: k := by
  cases is : tokens s with
  | nil =>
    rw [(gettoken_nil is).1] at word
    exact absurd word (by decide)
  | cons t k =>
    rw [(gettoken_cons is).1] at word
    cases t with
    | word w => exact ⟨w, k, rfl⟩
    | _ => exact absurd word (by decide)

theorem gettoken_zero (zero : (gettoken s).ret = 0) : tokens s = [] := by
  cases is : tokens s with
  | nil => rfl
  | cons t k =>
    rw [(gettoken_cons is).1] at zero
    cases t with
    | word w => exact absurd zero (show letterA ≠ 0 by decide)
    | _ => exact absurd zero (by decide)

theorem parseredirs_ends (depth : Nat) (cmd : Cmd) (s : List Byte) (enough : s.length < depth) :
    Ends (fun c s' => s'.length ≤ s.length ∧
      ∃ rs : List Redir, c = rs.foldl Redir.around cmd ∧ tokens s = rs.flatMap Redir.toks ++ tokens s')
      (parseredirs depth cmd s) := by
  induction depth generalizing cmd s with
  | zero => omega
  | succ depth ih =>
    rw [parseredirs, peek_pair]
    dsimp only
    split
    next more =>
      obtain ⟨op, k, is⟩ := peek_op more
      obtain ⟨ret, rest, _, short⟩ := gettoken_skip is
      split
      next => exact ends_panic
      next word =>
        obtain ⟨w, k', is'⟩ := gettoken_word (not_not.1 word)
        obtain ⟨_, rest', file, short'⟩ := gettoken_cons is'
        refine (ih _ _ (by omega)).mono fun c s' ⟨le, rs, built, read⟩ => ⟨by omega, ⟨op, w⟩ :: rs, ?_, ?_⟩
        · rw [built, List.foldl_cons, ← redirFor_ret ⟨op, w⟩, ret, file w rfl]
        · rw [is, ← rest, is', ← rest', read]
          rfl
    next => exact ends_done ⟨skip_length s, [], rfl, (tokens_skip s).symm⟩

theorem items_redirs (rs : List Redir) (cmd : Cmd) : (rs.map Item.redir).foldl Item.apply cmd = rs.foldl Redir.around cmd ∧
    (rs.map Item.redir).flatMap Item.toks = rs.flatMap Redir.toks ∧ words (rs.map Item.redir) = [] := by
  refine ⟨by rw [List.foldl_map]; rfl, by rw [List.flatMap_map]; rfl, ?_⟩
  rw [words, List.filterMap_map, List.filterMap_eq_nil_iff]
  exact fun r _ => rfl

theorem parseargs_ends (depth argc : Nat) (ret : Cmd) (s : List Byte) (enough : s.length < depth) (few : argc < MAXARGS) :
    Ends (fun c s' => s'.length ≤ s.length ∧ ∃ items : List Item, c = items.foldl Item.apply ret ∧
      tokens s = items.flatMap Item.toks ++ tokens s' ∧ argc + (words items).length < MAXARGS)
      (parseargs depth argc ret s) := by
  induction depth generalizing argc ret s with
  | zero => omega
  | succ depth ih =>
    rw [parseargs, peek_pair]
    dsimp only
    have skipped := skip_length s
    split
    next => exact ends_done ⟨skipped, [], rfl, (tokens_skip s).symm, few⟩
    next =>
      split
      next zero =>
        have none := gettoken_zero zero
        refine ends_done ⟨?_, [], rfl, ?_, few⟩
        · rw [(gettoken_nil none).2]
          exact Nat.zero_le _
        · rw [(gettoken_nil none).2, ← tokens_skip, none]
          rfl
      next =>
        split
        next => exact ends_panic
        next word =>
          obtain ⟨w, k, is⟩ := gettoken_word (not_not.1 word)
          obtain ⟨_, rest, file, short⟩ := gettoken_cons is
          split
          next => exact ends_panic
          next more =>
            refine (parseredirs_ends depth _ _ (by omega)).andThen fun ret1 s1 ⟨le1, rs, built1, read1⟩ => ?_
            refine (ih (argc + 1) ret1 s1 (by omega) (by omega)).mono fun c s' ⟨le, items, built, read, few'⟩ => ?_
            obtain ⟨folded, toks, noWords⟩ := items_redirs rs (ret.pushArg w)
            refine ⟨by omega, .word w :: (rs.map Item.redir ++ items), ?_, ?_, ?_⟩
            · rw [List.foldl_cons, List.foldl_append, Item.apply, folded, built, built1, file w rfl]
            · rw [← tokens_skip, is, ← rest, read1, read, List.flatMap_cons, List.flatMap_append, toks]
              simp [Item.toks]
            · have count : words (.word w :: (rs.map Item.redir ++ items)) = w :: (words (rs.map Item.redir) ++ words items) := by
                simp [words, Item.word?]
              rw [count, noWords, List.nil_append, List.length_cons]
              omega

theorem parsebacks_ends (depth : Nat) (cmd : Cmd) (s : List Byte) (enough : s.length < depth) :
    Ends (fun c s' => s'.length ≤ s.length ∧
      ∃ n, c = Cmd.back^[n] cmd ∧ tokens s = List.replicate n .amp ++ tokens s') (parsebacks depth cmd s) := by
  induction depth generalizing cmd s with
  | zero => omega
  | succ depth ih =>
    rw [parsebacks, peek_pair]
    dsimp only
    split
    next more =>
      obtain ⟨k, is⟩ := peek_symbol (by simp [symbols]) (by decide) more
      obtain ⟨_, rest, _, short⟩ := gettoken_skip is
      refine (ih _ _ (by omega)).mono fun c s' ⟨le, n, built, read⟩ => ⟨by omega, n + 1, ?_, ?_⟩
      · rw [built, Function.iterate_succ_apply]
      · rw [is, ← rest, read]
        rfl
    next => exact ends_done ⟨skip_length s, 0, rfl, (tokens_skip s).symm⟩

end

/-- The command of a tree whose tokens have been read. -/
def Derived {Tree : Type} (toks : Tree → List Token) (command : Tree → Cmd) (s : List Byte) (c : Cmd) (s' : List Byte) :
    Prop :=
  s'.length ≤ s.length ∧ ∃ t, command t = c ∧ tokens s = toks t ++ tokens s'

/-- What the four routines do at a depth. -/
structure Sound (depth : Nat) : Prop where
  line : ∀ s, 4 * s.length + 4 ≤ depth → Ends (Derived Line.toks Line.cmd s) (parseline depth s)
  pipe : ∀ s, 4 * s.length + 3 ≤ depth → Ends (Derived Pipe.toks Pipe.cmd s) (parsepipe depth s)
  exec : ∀ s, 4 * s.length + 2 ≤ depth → Ends (Derived Exec.toks Exec.cmd s) (parseexec depth s)
  block : ∀ s, (∃ k, tokens s = .lpar :: k) → 4 * s.length + 1 ≤ depth →
    Ends (Derived Exec.toks Exec.cmd s) (parseblock depth s)

section
variable {depth : Nat}

theorem Sound.line_succ (sound : Sound depth) (s : List Byte) (enough : 4 * s.length + 4 ≤ depth + 1) :
    Ends (Derived Line.toks Line.cmd s) (parseline (depth + 1) s) := by
  rw [parseline]
  refine (sound.pipe s (by omega)).andThen fun c1 s1 ⟨le1, p, built1, read1⟩ => ?_
  refine (parsebacks_ends depth c1 s1 (by omega)).andThen fun c2 s2 ⟨le2, n, built2, read2⟩ => ?_
  rw [peek_pair]
  dsimp only
  split
  next more =>
    obtain ⟨k, is⟩ := peek_symbol (by simp [symbols]) (by decide) more
    obtain ⟨_, rest, _, short⟩ := gettoken_skip is
    refine (sound.line _ (by omega)).andThen fun c3 s3 ⟨le3, l, built3, read3⟩ => ends_done ⟨by omega, .seq p n l, ?_, ?_⟩
    · rw [Line.cmd, built1, ← built2, built3]
    · rw [read1, read2, is, ← rest, read3, Line.toks]
      simp [Token.ofSymbol]
      decide
  next =>
    refine ends_done ⟨?_, .last p n, ?_, ?_⟩
    · have := skip_length s2
      omega
    · rw [Line.cmd, built1, built2]
    · rw [read1, read2, tokens_skip, Line.toks, List.append_assoc]

theorem Sound.pipe_succ (sound : Sound depth) (s : List Byte) (enough : 4 * s.length + 3 ≤ depth + 1) :
    Ends (Derived Pipe.toks Pipe.cmd s) (parsepipe (depth + 1) s) := by
  rw [parsepipe]
  refine (sound.exec s (by omega)).andThen fun c1 s1 ⟨le1, e, built1, read1⟩ => ?_
  rw [peek_pair]
  dsimp only
  split
  next more =>
    obtain ⟨k, is⟩ := peek_symbol (by simp [symbols]) (by decide) more
    obtain ⟨_, rest, _, short⟩ := gettoken_skip is
    refine (sound.pipe _ (by omega)).andThen fun c2 s2 ⟨le2, p, built2, read2⟩ => ends_done ⟨by omega, .seq e p, ?_, ?_⟩
    · rw [Pipe.cmd, built1, built2]
    · rw [read1, is, ← rest, read2, Pipe.toks, List.append_assoc]
      rfl
  next =>
    refine ends_done ⟨?_, .last e, ?_, ?_⟩
    · have := skip_length s1
      omega
    · rw [Pipe.cmd, built1]
    · rw [read1, tokens_skip, Pipe.toks]

theorem Sound.exec_succ (sound : Sound depth) (s : List Byte) (enough : 4 * s.length + 2 ≤ depth + 1) :
    Ends (Derived Exec.toks Exec.cmd s) (parseexec (depth + 1) s) := by
  have skipped := skip_length s
  rw [parseexec, peek_pair]
  dsimp only
  split
  next more =>
    obtain ⟨k, is⟩ := peek_symbol (by simp [symbols]) (by decide) more
    refine (sound.block (skip s) ⟨k, (tokens_skip s).trans is⟩ (by omega)).mono fun c s' ⟨le, e, built, read⟩ => ?_
    exact ⟨by omega, e, built, (tokens_skip s).symm.trans read⟩
  next =>
    refine (parseredirs_ends depth _ _ (by omega)).andThen fun c1 s1 ⟨le1, rs, built1, read1⟩ => ?_
    refine (parseargs_ends depth 0 c1 s1 (by omega) (by decide)).mono fun c s' ⟨le, items, built, read, few⟩ => ?_
    obtain ⟨folded, toks, noWords⟩ := items_redirs rs (.exec [])
    have count : words (rs.map Item.redir ++ items) = words items := by
      rw [words, List.filterMap_append]
      show words (rs.map Item.redir) ++ words items = _
      rw [noWords, List.nil_append]
    refine ⟨by omega, .simple (rs.map Item.redir ++ items) (by rw [count]; omega), ?_, ?_⟩
    · have whole := foldl_apply (rs.map Item.redir ++ items) [] []
      simp only [List.foldl_nil, List.nil_append] at whole
      rw [Exec.cmd, ← whole, List.foldl_append, folded, built, built1]
    · rw [← tokens_skip, read1, read, Exec.toks, List.flatMap_append, toks, List.append_assoc]

theorem Sound.block_succ (sound : Sound depth) (s : List Byte) (paren : ∃ k, tokens s = .lpar :: k)
    (enough : 4 * s.length + 1 ≤ depth + 1) : Ends (Derived Exec.toks Exec.cmd s) (parseblock (depth + 1) s) := by
  obtain ⟨k, is⟩ := paren
  obtain ⟨_, rest, _, short⟩ := gettoken_skip is
  rw [parseblock, peek_pair]
  dsimp only
  split
  next => exact ends_panic
  next =>
    refine (sound.line _ (by omega)).andThen fun c1 s1 ⟨le1, l, built1, read1⟩ => ?_
    rw [peek_pair]
    dsimp only
    split
    next => exact ends_panic
    next closes =>
      obtain ⟨k', is'⟩ := peek_symbol (by simp [symbols]) (by decide) (Bool.not_eq_false _ ▸ closes)
      obtain ⟨_, rest', _, short'⟩ := gettoken_skip is'
      refine (parseredirs_ends depth c1 _ (by omega)).mono fun c s' ⟨le, rs, built, read⟩ => ⟨by omega, .block l rs, ?_, ?_⟩
      · rw [Exec.cmd, built1, built]
      · rw [is, ← rest, read1, is', ← rest', read, Exec.toks]
        simp [Token.ofSymbol]
        decide

theorem sound (depth : Nat) : Sound depth := by
  induction depth with
  | zero => exact ⟨fun s _ => by omega, fun s _ => by omega, fun s _ => by omega, fun s _ _ => by omega⟩
  | succ depth ih => exact ⟨ih.line_succ, ih.pipe_succ, ih.exec_succ, ih.block_succ⟩

end

end Xv6.Shell
