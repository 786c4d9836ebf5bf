import Xv6.Shell.Correct

/-!
# Command lines

`parsecmd` as a whole: it ends on every line, returns the command of the line's derivation
and panics if there is none. The words of the command point into the line; `nulterminate`
stores a NUL byte at the end of each, and since no word goes on where another ends, each
word is then the string at its address.
-/

namespace Xv6.Shell

/-! ## The result of parsing -/

section
variable {buf : List Byte}

/-- A line that has a derivation is parsed. -/
theorem parsecmd_reads (l : Line) (read : tokens (cstring buf) = l.toks) :
    parsecmd buf = some (.ok (l.cmd, nulterminate (cstring buf) l.cmd buf)) := by
  obtain ⟨s', parsed, rest, _⟩ := Line.reads startsWith_nil l (cstring buf) _ (by rw [read, List.append_nil]) le_rfl
  have ends : (peek s' []).2 = [] := (tokens_eq_nil s').1 rest
  simp only [parsecmd, parsed, done, ends, ne_eq, not_true_eq_false, if_false]

/-- A line that is parsed has a derivation. -/
theorem parsecmd_derived (buf : List Byte) : ∃ outcome, parsecmd buf = some outcome ∧
    ∀ cmd line, outcome = .ok (cmd, line) → ∃ l : Line, l.toks = tokens (cstring buf) ∧ l.cmd = cmd := by
  have ends := (sound _).line (cstring buf) le_rfl
  simp only [parsecmd]
  cases parsed : parseline (4 * (cstring buf).length + 4) (cstring buf) with
  | none =>
    rw [parsed] at ends
    exact ends.elim
  | some r =>
    rw [parsed] at ends
    cases r with
    | error why => exact ⟨.error why, rfl, fun _ _ same => by cases same⟩
    | ok read =>
      obtain ⟨c, s'⟩ := read
      obtain ⟨_, l, built, toks⟩ : Derived Line.toks Line.cmd (cstring buf) c s' := ends
      by_cases left : (peek s' []).2 = []
      · simp only [left, ne_eq, not_true_eq_false, if_false]
        refine ⟨_, rfl, fun cmd line same => ⟨l, ?_, ?_⟩⟩
        · rw [toks, (tokens_eq_nil s').2 left, List.append_nil]
        · cases same
          exact built
      · simp only [left, ne_eq, not_false_eq_true, if_true]
        exact ⟨_, rfl, fun _ _ same => by cases same⟩

end

/-! ## The words of a command -/

/-- The words and files of a command. -/
def Cmd.words : Cmd → List Word
  | exec argv => argv
  | redir cmd file _ _ => cmd.words ++ [file]
  | pipe left right => left.words ++ right.words
  | list left right => left.words ++ right.words
  | back cmd => cmd.words

theorem words_backs (n : Nat) (cmd : Cmd) : (Cmd.back^[n] cmd).words = cmd.words := by
  induction n generalizing cmd with
  | zero => rfl
  | succ n ih => rw [Function.iterate_succ_apply, ih, Cmd.words]

theorem words_around (cmd : Cmd) (r : Redir) : (Redir.around cmd r).words = cmd.words ++ [r.file] := by
  unfold Redir.around
  cases r.op <;> rfl

theorem words_redirs (rs : List Redir) (cmd : Cmd) :
    (rs.foldl Redir.around cmd).words = cmd.words ++ rs.map Redir.file := by
  induction rs generalizing cmd with
  | nil => simp
  | cons r rs ih => rw [List.foldl_cons, ih, words_around, List.append_assoc, List.map_cons, List.singleton_append]

theorem mem_redirs_toks {rs : List Redir} {r : Redir} (member : r ∈ rs) : .word r.file ∈ rs.flatMap Redir.toks :=
  List.mem_flatMap.2 ⟨r, member, by simp [Redir.toks]⟩

mutual

theorem Line.words_toks {w : Word} : (l : Line) → w ∈ l.cmd.words → .word w ∈ l.toks
  | .last p n, member => by
    rw [Line.cmd, words_backs] at member
    rw [Line.toks]
    exact List.mem_append_left _ (Pipe.words_toks p member)
  | .seq p n l, member => by
    rw [Line.cmd, Cmd.words, words_backs, List.mem_append] at member
    rw [Line.toks, List.append_assoc]
    rcases member with here | later
    · exact List.mem_append_left _ (Pipe.words_toks p here)
    · exact List.mem_append_right _ (List.mem_append_right _ (List.mem_cons_of_mem _ (Line.words_toks l later)))

theorem Pipe.words_toks {w : Word} : (p : Pipe) → w ∈ p.cmd.words → .word w ∈ p.toks
  | .last e, member => by
    rw [Pipe.cmd] at member
    rw [Pipe.toks]
    exact Exec.words_toks e member
  | .seq e p, member => by
    rw [Pipe.cmd, Cmd.words, List.mem_append] at member
    rw [Pipe.toks]
    rcases member with here | later
    · exact List.mem_append_left _ (Exec.words_toks e here)
    · exact List.mem_append_right _ (List.mem_cons_of_mem _ (Pipe.words_toks p later))

theorem Exec.words_toks {w : Word} : (e : Exec) → w ∈ e.cmd.words → .word w ∈ e.toks
  | .block l rs, member => by
    rw [Exec.cmd, words_redirs, List.mem_append] at member
    rw [Exec.toks, List.cons_append]
    refine List.mem_cons_of_mem _ ?_
    rcases member with here | later
    · exact List.mem_append_left _ (Line.words_toks l here)
    · obtain ⟨r, member, rfl⟩ := List.mem_map.1 later
      exact List.mem_append_right _ (List.mem_cons_of_mem _ (mem_redirs_toks member))
  | .simple items few, member => by
    rw [Exec.cmd, words_redirs, Cmd.words, List.mem_append] at member
    rw [Exec.toks]
    rcases member with here | later
    · obtain ⟨i, member, is⟩ := List.mem_filterMap.1 here
      cases i with
      | word v =>
        cases is
        exact List.mem_flatMap.2 ⟨_, member, by simp [Item.toks]⟩
      | redir r => cases is
    · obtain ⟨r, found, rfl⟩ := List.mem_map.1 later
      obtain ⟨i, member, is⟩ := List.mem_filterMap.1 found
      cases i with
      | word v => cases is
      | redir r' =>
        cases is
        exact List.mem_flatMap.2 ⟨_, member, by simp [Item.toks, Redir.toks]⟩

end

/-! ## The strings of a command -/

/-- The bytes of a word. -/
def Word.text (w : Word) : List Byte := w.q.take (w.q.length - w.eq.length)

theorem nulterminate_eq (s : List Byte) (cmd : Cmd) (buf : List Byte) :
    nulterminate s cmd buf = cmd.words.foldl (fun buf w => storeNul s w.eq buf) buf := by
  induction cmd generalizing buf with
  | exec argv => rfl
  | redir cmd file mode fd ih => rw [nulterminate, ih, Cmd.words, List.foldl_append, List.foldl_cons, List.foldl_nil]
  | pipe left right ihl ihr => rw [nulterminate, ihl, ihr, Cmd.words, List.foldl_append]
  | list left right ihl ihr => rw [nulterminate, ihl, ihr, Cmd.words, List.foldl_append]
  | back cmd ih => rw [nulterminate, ih, Cmd.words]

/-- The bytes after `nulterminate`: NUL where a word ends, the old ones elsewhere. -/
theorem nulterminate_get (s : List Byte) (ws : List Word) (buf : List Byte) (i : Nat) :
    (ws.foldl (fun buf w => storeNul s w.eq buf) buf)[i]? =
      if (∃ w ∈ ws, place s w.eq = i) ∧ i < buf.length then some 0 else buf[i]? := by
  induction ws generalizing buf with
  | nil => simp
  | cons w ws ih =>
    rw [List.foldl_cons, ih, storeNul, List.length_set, List.getElem?_set]
    simp only [List.mem_cons, exists_eq_or_imp]
    by_cases here : place s w.eq = i
    · subst here
      by_cases bound : place s w.eq < buf.length
      · simp [bound]
      · simp [bound]
    · simp [here]

theorem cstring_eq {l : List Byte} (n : Nat) (inside : ∀ i < n, ∃ c, l[i]? = some c ∧ c ≠ 0)
    (stop : ∀ c, l[n]? = some c → c = 0) : cstring l = l.take n := by
  induction n generalizing l with
  | zero =>
    cases l with
    | nil => rfl
    | cons c l => simp [cstring, stop c rfl]
  | succ n ih =>
    cases l with
    | nil =>
      obtain ⟨c, is, _⟩ := inside 0 (by omega)
      cases is
    | cons c l =>
      obtain ⟨d, is, nonzero⟩ := inside 0 (by omega)
      cases is
      rw [cstring, List.takeWhile_cons_of_pos (by simpa using nonzero), List.take_succ_cons]
      exact congrArg _ (ih (fun i bound => inside (i + 1) (by omega)) stop)

theorem get_before_dropWhile {α : Type} {p : α → Bool} {i : Nat} (l : List α)
    (bound : i < l.length - (l.dropWhile p).length) : ∃ c, l[i]? = some c ∧ p c = true := by
  induction l generalizing i with
  | nil => simp at bound
  | cons c l ih =>
    by_cases ordinary : p c = true
    · rw [List.dropWhile_cons_of_pos ordinary] at bound
      cases i with
      | zero => exact ⟨c, rfl, ordinary⟩
      | succ i =>
        rw [List.length_cons] at bound
        exact ih (by omega)
    · rw [List.dropWhile_cons_of_neg ordinary] at bound
      omega

section
variable {buf s : List Byte} {ws : List Word} {w : Word}

theorem cstring_get {i : Nat} {c : Byte} (found : (cstring buf)[i]? = some c) : buf[i]? = some c ∧ c ≠ 0 := by
  have part : cstring buf <+: buf := List.takeWhile_prefix _
  obtain ⟨rest, whole⟩ := part
  refine ⟨by rw [← whole]; exact List.getElem?_append_left (List.getElem?_eq_some_iff.1 found).1 ▸ found, ?_⟩
  simpa using List.mem_takeWhile_imp (List.mem_of_getElem? found)

/-- A word that the lexer has cut out of the string `s`. -/
structure Cut (s : List Byte) (w : Word) : Prop where
  inside : w.q <:+ s
  ends : w.eq = skipWord w.q

theorem Cut.eq_suffix (cut : Cut s w) : w.eq <:+ w.q := cut.ends ▸ List.dropWhile_suffix _

theorem drop_place {p : List Byte} (inside : p <:+ s) : s.drop (place s p) = p := (List.suffix_iff_eq_drop.1 inside).symm

theorem Cut.place_eq (cut : Cut s w) : place s w.q + (w.q.length - w.eq.length) = place s w.eq := by
  have := cut.inside.length_le
  have := cut.eq_suffix.length_le
  unfold place
  omega

/-- No word goes on where another one ends. -/
theorem Cut.apart {v : Word} {i : Nat} (cut : Cut s w) (other : Cut s v) (inside : i < w.q.length - w.eq.length) :
    place s v.eq ≠ place s w.q + i := by
  intro same
  rw [cut.ends] at inside
  obtain ⟨c, is, ordinary⟩ := get_before_dropWhile w.q inside
  have rest : skipWord v.q = w.q.drop i := by
    rw [← other.ends, ← drop_place (other.eq_suffix.trans other.inside), same, ← List.drop_drop, drop_place cut.inside]
  have head : (skipWord v.q).head? = some c := by rw [rest, List.head?_drop, is]
  have stops := List.head?_dropWhile_not (fun c => decide (c ∉ whitespace ∧ c ∉ symbols)) v.q
  rw [show v.q.dropWhile _ = skipWord v.q from rfl, head] at stops
  simp [ordinary] at stops

/-- The bytes of a word stay, and the byte where it ends becomes NUL. -/
theorem Cut.string (cuts : ∀ w ∈ ws, Cut s w) (line : s = cstring buf) (member : w ∈ ws) :
    cstring ((ws.foldl (fun buf w => storeNul s w.eq buf) buf).drop (place s w.q)) = w.text := by
  have cut := cuts w member
  have byte (i : Nat) (inside : i < w.q.length - w.eq.length) : ∃ c,
      ((ws.foldl (fun buf w => storeNul s w.eq buf) buf).drop (place s w.q))[i]? = some c ∧ w.q[i]? = some c ∧ c ≠ 0 := by
    have found : w.q[i]? = s[place s w.q + i]? := by rw [← List.getElem?_drop, drop_place cut.inside]
    have is : w.q[i]? = some w.q[i] := List.getElem?_eq_getElem _
    obtain ⟨old, nonzero⟩ := cstring_get (line ▸ found.symm.trans is)
    refine ⟨w.q[i], ?_, is, nonzero⟩
    have kept : ¬ ((∃ v ∈ ws, place s v.eq = place s w.q + i) ∧ place s w.q + i < buf.length) := by
      rintro ⟨⟨v, other, same⟩, _⟩
      exact cut.apart (cuts v other) inside same
    rw [List.getElem?_drop, nulterminate_get, if_neg kept]
    exact line ▸ old
  have stop (c : Byte) (is : ((ws.foldl (fun buf w => storeNul s w.eq buf) buf).drop
      (place s w.q))[w.q.length - w.eq.length]? = some c) : c = 0 := by
    rw [List.getElem?_drop, cut.place_eq, nulterminate_get] at is
    split at is
    next => exact (Option.some.inj is).symm
    next outside =>
      refine absurd ⟨⟨w, member, rfl⟩, ?_⟩ outside
      exact (List.getElem?_eq_some_iff.1 is).1
  rw [cstring_eq _ (fun i inside => (byte i inside).imp fun c h => ⟨h.1, h.2.2⟩) stop, Word.text]
  refine List.ext_getElem? fun i => ?_
  rw [List.getElem?_take, List.getElem?_take]
  split
  next inside =>
    obtain ⟨c, new, old, _⟩ := byte i inside
    rw [new, old]
  next => rfl

end

/-- **`parsecmd` accepts the lines of the grammar.** It ends on every line; it returns a command just if the tokens of
the line have a derivation, which is then the only one, and the command is that of the derivation; and every word of a
command that is returned is a string in the buffer. -/
theorem parsecmd_grammar (buf : List Byte) :
    (∃ outcome, parsecmd buf = some outcome) ∧
    (∀ cmd, (∃ line, parsecmd buf = some (.ok (cmd, line))) ↔
      ∃ l : Line, (∀ l' : Line, l'.toks = tokens (cstring buf) ↔ l' = l) ∧ l.cmd = cmd) ∧
    ∀ cmd line, parsecmd buf = some (.ok (cmd, line)) →
      ∀ w ∈ cmd.words, cstring (line.drop (place (cstring buf) w.q)) = w.text := by
  obtain ⟨outcome, ends, derived⟩ := parsecmd_derived buf
  refine ⟨⟨outcome, ends⟩, fun cmd => ⟨?_, ?_⟩, ?_⟩
  · rintro ⟨line, returned⟩
    obtain ⟨l, toks, built⟩ := derived cmd line (Option.some.inj (ends.symm.trans returned))
    refine ⟨l, fun l' => ⟨fun toks' => ?_, fun same => same ▸ toks⟩, built⟩
    exact (Line.unique startsWith_nil startsWith_nil l' l (by rw [toks', toks])).1
  · rintro ⟨l, only, rfl⟩
    exact ⟨_, parsecmd_reads l ((only l).2 rfl).symm⟩
  · intro cmd line returned w member
    obtain ⟨l, toks, rfl⟩ := derived cmd line (Option.some.inj (ends.symm.trans returned))
    rw [parsecmd_reads l toks.symm] at returned
    cases returned
    rw [nulterminate_eq]
    refine Cut.string (fun v other => ?_) rfl member
    obtain ⟨inside, stops⟩ := tokens_words (toks ▸ Line.words_toks l other)
    exact ⟨inside, stops⟩

-- `ls>a;b&`
example : ∃ ls a b line, parsecmd [0x6c, 0x73, gt, 0x61, semi, 0x62, amp, 0] =
    some (.ok (.list (.redir (.exec [ls]) a (O_WRONLY ||| O_CREATE) 1) (.back (.exec [b])), line)) ∧
    line = [0x6c, 0x73, 0, 0x61, 0, 0x62, 0, 0] := ⟨_, _, _, _, rfl, rfl⟩

end Xv6.Shell
