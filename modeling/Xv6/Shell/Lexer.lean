import Mathlib

/-!
# The tokens of the shell

`gettoken` and `peek` of `sh.c`. The line ends with a NUL byte at `es`, so a pointer
into it is the rest of the line from there, and the byte at the end is 0. `tokens` says
what the tokens of a line are, in one pass over it; the two functions read that list from
the front.
-/

namespace Xv6.Shell

abbrev Byte := BitVec 8

def lt : Byte := 0x3c

def bar : Byte := 0x7c

def gt : Byte := 0x3e

def amp : Byte := 0x26

def semi : Byte := 0x3b

def lpar : Byte := 0x28

def rpar : Byte := 0x29

/-- `'+'`, which stands for `>>`. -/
def plus : Byte := 0x2b

/-- `'a'`, which stands for a word. -/
def letterA : Byte := 0x61

/-- `" \t\r\n\v"`. -/
def whitespace : List Byte := [0x20, 0x09, 0x0d, 0x0a, 0x0b]

/-- `"<|>&;()"`. -/
def symbols : List Byte := [lt, bar, gt, amp, semi, lpar, rpar]

/-- `while(s < es && strchr(whitespace, *s)) s++`. -/
def skip (s : List Byte) : List Byte := s.dropWhile fun c => decide (c ∈ whitespace)

/-- `while(s < es && !strchr(whitespace, *s) && !strchr(symbols, *s)) s++`. -/
def skipWord (s : List Byte) : List Byte := s.dropWhile fun c => decide (c ∉ whitespace ∧ c ∉ symbols)

/-- What `gettoken` returns and stores: the token, `*q`, `*eq` and `*ps`. -/
structure Gettoken where
  ret : Byte
  q : List Byte
  eq : List Byte
  ps : List Byte
  deriving DecidableEq, Repr

/-- The `switch` of `gettoken`: the token at `s`, and where it ends. -/
def switch (s : List Byte) : Byte × List Byte :=
  match s with
  | [] => (0, [])
  | c :: r =>
    if c = bar ∨ c = lpar ∨ c = rpar ∨ c = semi ∨ c = amp ∨ c = lt then (c, r)
    else if c = gt then
      match r with
      | d :: r' => if d = gt then (plus, r') else (c, r)
      | [] => (c, r)
    else (letterA, skipWord s)

def gettoken (s : List Byte) : Gettoken :=
  let s := skip s
  ⟨(switch s).1, s, (switch s).2, skip (switch s).2⟩

/-- `peek`: the answer, and `*ps` afterwards. -/
def peek (s toks : List Byte) : Bool × List Byte :=
  let s := skip s
  (match s with
    | [] => false
    | c :: _ => decide (c ∈ toks), s)

/-! ## The tokens of a line -/

/-- The bytes of the line from `q` to `eq`. -/
structure Word where
  q : List Byte
  eq : List Byte
  deriving DecidableEq, Repr

inductive Token where
  | lt
  | bar
  | gt
  | amp
  | semi
  | lpar
  | rpar
  /-- `>>` -/
  | append
  | word (w : Word)
  deriving DecidableEq, Repr

/-- What `gettoken` returns for the token. -/
def Token.ret : Token → Byte
  | lt => Shell.lt
  | bar => Shell.bar
  | gt => Shell.gt
  | amp => Shell.amp
  | semi => Shell.semi
  | lpar => Shell.lpar
  | rpar => Shell.rpar
  | append => plus
  | word _ => letterA

/-- The symbol that the token begins with. -/
def Token.symbol? : Token → Option Byte
  | append => some Shell.gt
  | word _ => none
  | t => some t.ret

/-- The token of a symbol that stands alone. -/
def Token.ofSymbol (c : Byte) : Token :=
  if c = Shell.lt then .lt
  else if c = Shell.bar then .bar
  else if c = Shell.gt then .gt
  else if c = Shell.amp then .amp
  else if c = Shell.semi then .semi
  else if c = Shell.lpar then .lpar
  else .rpar

/-- The word that began at `start`, if one did, ends here. -/
def flush (start : Option (List Byte)) (here : List Byte) : List Token :=
  match start with
  | none => []
  | some q => [.word ⟨q, here⟩]

/-- The tokens of the rest of a line, when a word began at `start`. -/
def lexFrom (start : Option (List Byte)) : List Byte → List Token
  | [] => flush start []
  | c :: s =>
    if c ∈ whitespace then flush start (c :: s) ++ lexFrom none s
    else if c ∈ symbols then
      flush start (c :: s) ++ match s with
        | [] => [.ofSymbol c]
        | d :: s' => if c = gt ∧ d = gt then .append :: lexFrom none s' else .ofSymbol c :: lexFrom none (d :: s')
    else lexFrom (start.or (some (c :: s))) s

/-- **The tokens of a line.** -/
def tokens (s : List Byte) : List Token := lexFrom none s

-- `ls>>a|(b;)`
example : (tokens [0x6c, 0x73, gt, gt, 0x61, bar, lpar, 0x62, semi, rpar]).map Token.ret =
    [letterA, plus, letterA, bar, lpar, letterA, semi, rpar] := by decide

section
variable {s ts : List Byte} {c : Byte} {t : Token} {rest : List Token}

theorem lexFrom_space (start : Option (List Byte)) (space : c ∈ whitespace) :
    lexFrom start (c :: s) = flush start (c :: s) ++ tokens s := by
  cases s <;> simp [lexFrom, tokens, space]

theorem lexFrom_symbol (start : Option (List Byte)) (front : c ∉ whitespace) (symbol : c ∈ symbols) :
    lexFrom start (c :: s) = flush start (c :: s) ++ tokens (c :: s) := by
  cases s <;> simp [lexFrom, tokens, front, symbol, flush]

theorem lexFrom_ordinary (start : Option (List Byte)) (front : c ∉ whitespace) (ordinary : c ∉ symbols) :
    lexFrom start (c :: s) = lexFrom (start.or (some (c :: s))) s := by
  cases s <;> simp [lexFrom, front, ordinary]

theorem tokens_skip (s : List Byte) : tokens (skip s) = tokens s := by
  induction s with
  | nil => rfl
  | cons c s ih =>
    by_cases space : c ∈ whitespace
    · rw [skip, List.dropWhile_cons_of_pos (by simpa using space)]
      exact ih.trans (lexFrom_space none space).symm
    · rw [skip, List.dropWhile_cons_of_neg (by simpa using space)]

/-- A word goes on to the next white space or symbol. -/
theorem lexFrom_some (q s : List Byte) : lexFrom (some q) s = .word ⟨q, skipWord s⟩ :: tokens (skipWord s) := by
  induction s with
  | nil => rfl
  | cons c s ih =>
    by_cases space : c ∈ whitespace
    · rw [skipWord, List.dropWhile_cons_of_neg (by simp [space]), lexFrom_space _ space, tokens, tokens, lexFrom_space _ space]
      rfl
    · by_cases symbol : c ∈ symbols
      · rw [skipWord, List.dropWhile_cons_of_neg (by simp [symbol]), lexFrom_symbol _ space symbol]
        rfl
      · rw [skipWord, List.dropWhile_cons_of_pos (by simp [space, symbol]), lexFrom_ordinary _ space symbol]
        exact ih

theorem tokens_symbol (front : c ∉ whitespace) (symbol : c ∈ symbols) (single : c ≠ gt ∨ s.head? ≠ some gt) :
    tokens (c :: s) = .ofSymbol c :: tokens s := by
  cases s with
  | nil => simp [tokens, lexFrom, front, symbol, flush]
  | cons d s =>
    have other : ¬ (c = gt ∧ d = gt) := not_and_or.2 (by simpa using single)
    simp [tokens, lexFrom, front, symbol, flush, other]

theorem tokens_append (s : List Byte) : tokens (gt :: gt :: s) = .append :: tokens s := by
  have front : gt ∉ whitespace := by decide
  have symbol : gt ∈ symbols := by decide
  simp [tokens, lexFrom, front, symbol, flush]

theorem tokens_word (front : c ∉ whitespace) (ordinary : c ∉ symbols) :
    tokens (c :: s) = .word ⟨c :: s, skipWord (c :: s)⟩ :: tokens (skipWord (c :: s)) := by
  have word := lexFrom_some (c :: s) s
  rw [tokens, lexFrom_ordinary _ front ordinary]
  rw [skipWord, List.dropWhile_cons_of_pos (by simp [front, ordinary])]
  exact word

theorem ofSymbol_ret : ∀ c ∈ symbols, (Token.ofSymbol c).ret = c ∧ (Token.ofSymbol c).symbol? = some c := by decide

theorem ofSymbol_ne_word (c : Byte) (w : Word) : Token.ofSymbol c ≠ .word w := by
  unfold Token.ofSymbol
  split_ifs <;> simp

theorem front_of_skip (more : skip s = c :: ts) : c ∉ whitespace := by
  have := List.head?_dropWhile_not (fun c => decide (c ∈ whitespace)) s
  rw [← skip, more] at this
  simpa using this

/-- **The token at the front**: what `gettoken` makes of it. -/
theorem tokens_switch (front : c ∉ whitespace) : ∃ t, tokens (c :: ts) = t :: tokens (switch (c :: ts)).2 ∧
    (switch (c :: ts)).1 = t.ret ∧ t.symbol? = (if c ∈ symbols then some c else none) ∧
    (∀ w, t = .word w → w = ⟨c :: ts, (switch (c :: ts)).2⟩) ∧ (switch (c :: ts)).2.length ≤ ts.length := by
  by_cases symbol : c ∈ symbols
  · rw [if_pos symbol]
    by_cases isGt : c = gt
    · subst isGt
      have none : ¬ (gt = bar ∨ gt = lpar ∨ gt = rpar ∨ gt = semi ∨ gt = amp ∨ gt = lt) := by decide
      cases ts with
      | nil => exact ⟨.gt, rfl, rfl, rfl, by simp, by decide⟩
      | cons d ts =>
        by_cases double : d = gt
        · subst double
          have is : switch (gt :: gt :: ts) = (plus, ts) := by simp [switch, none]
          rw [is]
          exact ⟨.append, tokens_append ts, rfl, rfl, by simp, by simp⟩
        · have is : switch (gt :: d :: ts) = (gt, d :: ts) := by simp [switch, none, double]
          rw [is]
          exact ⟨.gt, tokens_symbol front symbol (.inr (by simpa using double)), rfl, rfl, by simp, by simp⟩
    · have rest : c = bar ∨ c = lpar ∨ c = rpar ∨ c = semi ∨ c = amp ∨ c = lt := by
        revert symbol isGt
        revert c
        decide
      have is : switch (c :: ts) = (c, ts) := by simp only [switch, if_pos rest]
      rw [is]
      obtain ⟨ret, first⟩ := ofSymbol_ret c symbol
      exact ⟨.ofSymbol c, tokens_symbol front symbol (.inl isGt), ret.symm, first,
        fun w same => absurd same (ofSymbol_ne_word c w), by simp⟩
  · rw [if_neg symbol]
    have none : ¬ (c = bar ∨ c = lpar ∨ c = rpar ∨ c = semi ∨ c = amp ∨ c = lt) ∧ c ≠ gt := by
      revert symbol
      revert c
      decide
    have is : switch (c :: ts) = (letterA, skipWord (c :: ts)) := by simp only [switch, if_neg none.1, if_neg none.2]
    rw [is]
    refine ⟨_, tokens_word front symbol, rfl, rfl, by simp, ?_⟩
    rw [skipWord, List.dropWhile_cons_of_pos (by simp [front, symbol])]
    exact (List.dropWhile_suffix _).length_le

/-! ## The two functions of the parser -/

theorem skip_length (s : List Byte) : (skip s).length ≤ s.length := (List.dropWhile_suffix _).length_le

theorem tokens_eq_nil (s : List Byte) : tokens s = [] ↔ skip s = [] := by
  rw [← tokens_skip]
  cases more : skip s with
  | nil => simp [tokens, lexFrom, flush]
  | cons c ts =>
    obtain ⟨t, is, _⟩ : ∃ t, tokens (c :: ts) = t :: _ ∧ _ := tokens_switch (front_of_skip more)
    simp [is]

theorem gettoken_nil (none : tokens s = []) : (gettoken s).ret = 0 ∧ (gettoken s).ps = [] := by
  have empty := (tokens_eq_nil s).1 none
  simp only [gettoken, empty]
  exact ⟨rfl, rfl⟩

/-- **`gettoken` takes the first token.** -/
theorem gettoken_cons (more : tokens s = t :: rest) : (gettoken s).ret = t.ret ∧ tokens (gettoken s).ps = rest ∧
    (∀ w, t = .word w → ⟨(gettoken s).q, (gettoken s).eq⟩ = w) ∧ (gettoken s).ps.length < s.length := by
  have bound := skip_length s
  rw [← tokens_skip] at more
  cases chars : skip s with
  | nil =>
    rw [chars] at more
    cases more
  | cons c ts =>
    obtain ⟨t', is, ret, _, word, short⟩ := tokens_switch (front_of_skip chars)
    rw [chars, is] at more
    cases more
    simp only [gettoken, chars]
    rw [chars] at bound
    have rest := skip_length (switch (c :: ts)).2
    refine ⟨ret, tokens_skip _, fun w same => (word w same).symm, ?_⟩
    simp at bound
    omega

/-- **`peek` looks at the symbol of the first token.** -/
theorem peek_eq (s : List Byte) {toks : List Byte} (sub : ∀ c ∈ toks, c ∈ symbols) :
    (peek s toks).1 = ((tokens s).head?.bind Token.symbol?).any fun c => decide (c ∈ toks) := by
  rw [← tokens_skip]
  cases chars : skip s with
  | nil => simp [peek, chars, tokens, lexFrom, flush]
  | cons c ts =>
    obtain ⟨t, is, _, first, _⟩ := tokens_switch (front_of_skip chars)
    rw [is]
    simp only [peek, chars, List.head?_cons, Option.bind_some, first]
    by_cases symbol : c ∈ symbols
    · simp [symbol]
    · have outside : c ∉ toks := fun member => symbol (sub c member)
      simp [symbol, outside]

theorem switch_suffix (s : List Byte) : (switch s).2 <:+ s := by
  unfold switch
  split
  next => exact List.suffix_rfl
  next c r =>
    split
    next => exact List.suffix_cons c r
    next =>
      split
      next =>
        cases r with
        | nil => exact List.suffix_cons c _
        | cons d r' =>
          dsimp only
          split
          next => exact (List.suffix_cons d r').trans (List.suffix_cons c _)
          next => exact List.suffix_cons c _
      next => exact List.dropWhile_suffix _

/-- The words of a line are parts of it, and end before the first byte that cannot be in a word. -/
theorem tokens_words {s : List Byte} {w : Word} (found : .word w ∈ tokens s) : w.q <:+ s ∧ w.eq = skipWord w.q := by
  rw [← tokens_skip] at found
  have skipped : skip s <:+ s := List.dropWhile_suffix _
  cases chars : skip s with
  | nil =>
    rw [chars] at found
    cases found
  | cons c ts =>
    rw [chars] at found skipped
    obtain ⟨t, is, _, first, _, short⟩ := tokens_switch (c := c) (front_of_skip chars)
    have inner : (switch (c :: ts)).2 <:+ s := (switch_suffix _).trans skipped
    have fewer : (switch (c :: ts)).2.length < s.length := Nat.lt_of_lt_of_le (Nat.lt_succ_of_le short) skipped.length_le
    rw [is, List.mem_cons] at found
    rcases found with here | later
    · subst here
      have ordinary : c ∉ symbols := by
        intro symbol
        simp [Token.symbol?, symbol] at first
      have same := (tokens_word (front_of_skip chars) ordinary).symm.trans is
      simp only [List.cons.injEq, Token.word.injEq] at same
      rw [← same.1]
      exact ⟨skipped, rfl⟩
    · obtain ⟨sub, ends⟩ := tokens_words later
      exact ⟨sub.trans inner, ends⟩
termination_by s.length

end

end Xv6.Shell
