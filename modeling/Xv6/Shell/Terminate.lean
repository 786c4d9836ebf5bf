import Xv6.Shell.Parsecmd

/-!
# Terminating the words of a command in place

`struct execcmd` holds the arguments in two arrays of `MAXARGS` pointers: where each word
begins, and where it ends. `parseexec` fills them from the front and stores a null pointer
behind the last one; `nulterminate` walks the first array up to the null pointer and stores
a NUL byte through the second. Here the arrays are as they are in memory, a read past their
end or a store through a null pointer stops the walk, and the walk over an accepted command
is shown to be the one that `parsecmd` makes over its lists of words.
-/

namespace Xv6.Shell

/-! ## The arrays of an EXEC node -/

/-- `argv` and `eargv`; `none` is the null pointer. -/
structure ExecCmd where
  argv : List (Option (List Byte))
  eargv : List (Option (List Byte))
  deriving DecidableEq, Repr

/-- What `execcmd` returns: everything is zero. -/
def execcmd : ExecCmd := ⟨.replicate MAXARGS none, .replicate MAXARGS none⟩

/-- `cmd->argv[argc] = q; cmd->eargv[argc] = eq`. -/
def ExecCmd.store (x : ExecCmd) (argc : Nat) (q eq : Option (List Byte)) : ExecCmd :=
  ⟨x.argv.set argc q, x.eargv.set argc eq⟩

/-- The stores of `parseexec` from `argc` on, when these are the words that it still reads. -/
def ExecCmd.fill (x : ExecCmd) (argc : Nat) : List Word → ExecCmd
  | [] => x.store argc none none
  | w :: ws => (x.store argc (some w.q) (some w.eq)).fill (argc + 1) ws

/-- `for(i = 0; ecmd->argv[i]; i++) *ecmd->eargv[i] = 0`, from `i` on; `none` says that it leaves the arrays or stores
through a null pointer. -/
def ExecCmd.nulterminate (s : List Byte) (x : ExecCmd) (i : Nat) (buf : List Byte) : Option (List Byte) :=
  if i < MAXARGS then
    match x.argv[i]?, x.eargv[i]? with
    | some none, _ => some buf
    | some (some _), some (some e) => x.nulterminate s (i + 1) (storeNul s e buf)
    | _, _ => none
  else none
termination_by MAXARGS - i

/-- `nulterminate` over the nodes in memory. -/
def nulterminateNodes (s : List Byte) : Cmd → List Byte → Option (List Byte)
  | .exec argv, buf => (execcmd.fill 0 argv).nulterminate s 0 buf
  | .redir cmd file _ _, buf => (nulterminateNodes s cmd buf).map (storeNul s file.eq)
  | .pipe left right, buf => (nulterminateNodes s left buf).bind (nulterminateNodes s right)
  | .list left right, buf => (nulterminateNodes s left buf).bind (nulterminateNodes s right)
  | .back cmd, buf => nulterminateNodes s cmd buf

section
variable {s : List Byte} {x : ExecCmd} {argc i : Nat} {ws : List Word} {cmd : Cmd}

/-- The later stores leave the slots below `argc` alone. -/
theorem fill_below (x : ExecCmd) (ws : List Word) (below : i < argc) :
    (x.fill argc ws).argv[i]? = x.argv[i]? ∧ (x.fill argc ws).eargv[i]? = x.eargv[i]? := by
  induction ws generalizing x argc with
  | nil =>
    have ne : argc ≠ i := by omega
    simp [ExecCmd.fill, ExecCmd.store, ne]
  | cons w ws ih =>
    have ne : argc ≠ i := by omega
    obtain ⟨argv, eargv⟩ := ih (x.store argc (some w.q) (some w.eq)) (show i < argc + 1 by omega)
    rw [ExecCmd.fill, argv, eargv]
    simp [ExecCmd.store, ne]

/-- The slots of the words. -/
theorem fill_word (room : argc + ws.length < x.argv.length) (same : x.eargv.length = x.argv.length) (inside : i < ws.length) :
    (x.fill argc ws).argv[argc + i]? = some (some ws[i].q) ∧ (x.fill argc ws).eargv[argc + i]? = some (some ws[i].eq) := by
  induction ws generalizing x argc i with
  | nil => simp at inside
  | cons w ws ih =>
    rw [List.length_cons] at room
    rw [ExecCmd.fill]
    cases i with
    | zero =>
      obtain ⟨argv, eargv⟩ := fill_below (x.store argc (some w.q) (some w.eq)) ws (Nat.lt_succ_self argc)
      have here : argc < x.argv.length := by omega
      rw [add_zero, argv, eargv]
      simp [ExecCmd.store, same, here]
    | succ i =>
      have room' : argc + 1 + ws.length < (x.store argc (some w.q) (some w.eq)).argv.length := by
        simp only [ExecCmd.store, List.length_set]
        omega
      have rest := ih (i := i) room' (by simp [ExecCmd.store, same]) (by simpa using inside)
      rwa [show argc + 1 + i = argc + (i + 1) by omega] at rest

/-- The slot behind the words. -/
theorem fill_end (room : argc + ws.length < x.argv.length) : (x.fill argc ws).argv[argc + ws.length]? = some none := by
  induction ws generalizing x argc with
  | nil =>
    rw [List.length_nil, add_zero] at room ⊢
    simp [ExecCmd.fill, ExecCmd.store, room]
  | cons w ws ih =>
    rw [List.length_cons] at room ⊢
    rw [ExecCmd.fill]
    have room' : argc + 1 + ws.length < (x.store argc (some w.q) (some w.eq)).argv.length := by
      simp only [ExecCmd.store, List.length_set]
      omega
    have rest := ih room'
    rwa [show argc + 1 + ws.length = argc + (ws.length + 1) by omega] at rest

/-- **The loop of `nulterminate`** stores through `eargv` once for each word. -/
theorem nulterminate_loop (few : ws.length < MAXARGS) (within : i ≤ ws.length) (buf : List Byte) :
    (execcmd.fill 0 ws).nulterminate s i buf = some ((ws.drop i).foldl (fun buf w => storeNul s w.eq buf) buf) := by
  have room : 0 + ws.length < execcmd.argv.length := by simpa [execcmd] using few
  -- backwards over the slots that are left
  induction left : ws.length - i generalizing i buf with
  | zero =>
    obtain rfl : i = ws.length := by omega
    have null := fill_end room
    rw [zero_add] at null
    rw [ExecCmd.nulterminate, if_pos few, null, List.drop_length]
    rfl
  | succ left ih =>
    have inside : i < ws.length := by omega
    obtain ⟨argv, eargv⟩ := fill_word room rfl inside
    rw [zero_add] at argv eargv
    rw [ExecCmd.nulterminate, if_pos (by omega), argv, eargv, List.drop_eq_getElem_cons inside, List.foldl_cons]
    exact ih (by omega) _ (by omega)

/-! ## The EXEC nodes of a command -/

/-- The arguments of the EXEC nodes of a command. -/
def Cmd.execs : Cmd → List (List Word)
  | exec argv => [argv]
  | redir cmd _ _ _ => cmd.execs
  | pipe left right => left.execs ++ right.execs
  | list left right => left.execs ++ right.execs
  | back cmd => cmd.execs

theorem execs_backs (n : Nat) (cmd : Cmd) : (Cmd.back^[n] cmd).execs = cmd.execs := by
  induction n generalizing cmd with
  | zero => rfl
  | succ n ih => rw [Function.iterate_succ_apply, ih, Cmd.execs]

theorem execs_redirs (rs : List Redir) (cmd : Cmd) : (rs.foldl Redir.around cmd).execs = cmd.execs := by
  induction rs generalizing cmd with
  | nil => rfl
  | cons r rs ih =>
    rw [List.foldl_cons, ih]
    unfold Redir.around
    cases r.op <;> rfl

mutual

/-- The null pointer behind the arguments fits into the array. -/
theorem Line.execs_few : (l : Line) → ∀ argv ∈ l.cmd.execs, argv.length < MAXARGS
  | .last p n, argv, member => by
    rw [Line.cmd, execs_backs] at member
    exact Pipe.execs_few p argv member
  | .seq p n l, argv, member => by
    rw [Line.cmd, Cmd.execs, execs_backs, List.mem_append] at member
    rcases member with here | later
    · exact Pipe.execs_few p argv here
    · exact Line.execs_few l argv later

theorem Pipe.execs_few : (p : Pipe) → ∀ argv ∈ p.cmd.execs, argv.length < MAXARGS
  | .last e, argv, member => by
    rw [Pipe.cmd] at member
    exact Exec.execs_few e argv member
  | .seq e p, argv, member => by
    rw [Pipe.cmd, Cmd.execs, List.mem_append] at member
    rcases member with here | later
    · exact Exec.execs_few e argv here
    · exact Pipe.execs_few p argv later

theorem Exec.execs_few : (e : Exec) → ∀ argv ∈ e.cmd.execs, argv.length < MAXARGS
  | .block l rs, argv, member => by
    rw [Exec.cmd, execs_redirs] at member
    exact Line.execs_few l argv member
  | .simple items few, argv, member => by
    rw [Exec.cmd, execs_redirs, Cmd.execs, List.mem_singleton] at member
    exact member ▸ few

end

/-- Over nodes whose arrays are large enough, the walk in memory is the walk over the lists. -/
theorem nulterminateNodes_eq (few : ∀ argv ∈ cmd.execs, argv.length < MAXARGS) (buf : List Byte) :
    nulterminateNodes s cmd buf = some (nulterminate s cmd buf) := by
  induction cmd generalizing buf with
  | exec argv =>
    rw [nulterminateNodes, nulterminate_loop (few argv (by simp [Cmd.execs])) (Nat.zero_le _)]
    rfl
  | redir cmd file mode fd ih => rw [nulterminateNodes, ih few]; rfl
  | pipe left right ihl ihr =>
    rw [nulterminateNodes, ihl fun argv inside => few argv (List.mem_append_left _ inside)]
    exact ihr (fun argv inside => few argv (List.mem_append_right _ inside)) _
  | list left right ihl ihr =>
    rw [nulterminateNodes, ihl fun argv inside => few argv (List.mem_append_left _ inside)]
    exact ihr (fun argv inside => few argv (List.mem_append_right _ inside)) _
  | back cmd ih => exact ih few buf

end

/-! ## Accepted lines -/

section
variable {buf buf' : List Byte} {cmd : Cmd}

theorem parsecmd_accepted (accepted : parsecmd buf = some (.ok (cmd, buf'))) :
    buf' = nulterminate (cstring buf) cmd buf ∧ (∀ argv ∈ cmd.execs, argv.length < MAXARGS) ∧
      ∀ w ∈ cmd.words, .word w ∈ tokens (cstring buf) := by
  obtain ⟨outcome, ends, derived⟩ := parsecmd_derived buf
  obtain ⟨l, toks, rfl⟩ := derived cmd buf' (Option.some.inj (ends.symm.trans accepted))
  rw [parsecmd_reads l toks.symm] at accepted
  cases accepted
  exact ⟨rfl, Line.execs_few l, fun w member => toks ▸ Line.words_toks l member⟩

theorem cut_of_token {w : Word} (token : .word w ∈ tokens (cstring buf)) : Cut (cstring buf) w :=
  ⟨(tokens_words token).1, (tokens_words token).2⟩

/-- **Terminating in place is harmless.** For every line that `parsecmd` accepts: each argument and each file of the
command is a token of the line, and the string at its address afterwards is the text of that token; the bytes of every
word of the line are as they were, and a byte has changed only where a word of the command ends; the walk of
`nulterminate` over the nodes in memory does exactly this without leaving an array, and the `argv` of every EXEC node
holds its words and then the null pointer. -/
theorem nulterminate_harmless (accepted : parsecmd buf = some (.ok (cmd, buf'))) :
    (∀ w ∈ cmd.words, .word w ∈ tokens (cstring buf) ∧ cstring (buf'.drop (place (cstring buf) w.q)) = w.text) ∧
    (∀ w, .word w ∈ tokens (cstring buf) → ∀ i, place (cstring buf) w.q ≤ i → i < place (cstring buf) w.eq →
      buf'[i]? = buf[i]?) ∧
    (∀ i, buf'[i]? ≠ buf[i]? → ∃ w ∈ cmd.words, place (cstring buf) w.eq = i) ∧
    nulterminateNodes (cstring buf) cmd buf = some buf' ∧
    ∀ argv ∈ cmd.execs, argv.length < MAXARGS ∧ (execcmd.fill 0 argv).argv[argv.length]? = some none ∧
      ∀ (i : Nat) (inside : i < argv.length), (execcmd.fill 0 argv).argv[i]? = some (some argv[i].q) := by
  obtain ⟨rfl, few, toks⟩ := parsecmd_accepted accepted
  have cuts : ∀ w ∈ cmd.words, Cut (cstring buf) w := fun w member => cut_of_token (toks w member)
  refine ⟨fun w member => ⟨toks w member, ?_⟩, fun w token i above below => ?_, fun i changed => ?_,
    nulterminateNodes_eq few buf, fun argv member => ?_⟩
  · rw [nulterminate_eq]
    exact Cut.string cuts rfl member
  · have cut := cut_of_token token
    have length := cut.place_eq
    have kept : ¬ ((∃ v ∈ cmd.words, place (cstring buf) v.eq = i) ∧ i < buf.length) := by
      rintro ⟨⟨v, other, same⟩, _⟩
      exact cut.apart (i := i - place (cstring buf) w.q) (cuts v other) (by omega) (by omega)
    rw [nulterminate_eq, nulterminate_get, if_neg kept]
  · rw [nulterminate_eq, nulterminate_get] at changed
    split_ifs at changed with ends
    · exact ends.1
    · exact absurd rfl changed
  · have short := few argv member
    have room : 0 + argv.length < execcmd.argv.length := by simpa [execcmd] using short
    refine ⟨short, ?_, fun i inside => ?_⟩
    · have null := fill_end room
      rwa [zero_add] at null
    · have slot := (fill_word room rfl inside).1
      rwa [zero_add] at slot

/-- `a>b|c`: every word ends where an operator stands. -/
theorem nulterminate_harmless_packed : ∃ cmd buf' a b c,
    parsecmd [0x61, gt, 0x62, bar, 0x63, 0] = some (.ok (cmd, buf')) ∧ cmd.words = [a, b, c] ∧
      buf' = [0x61, 0, 0x62, 0, 0x63, 0] ∧ cstring (buf'.drop (place [0x61, gt, 0x62, bar, 0x63] b.q)) = [0x62] := by
  have accepted : ∃ cmd buf', parsecmd [0x61, gt, 0x62, bar, 0x63, 0] = some (.ok (cmd, buf')) ∧
      cmd.words = [⟨[0x61, gt, 0x62, bar, 0x63], [gt, 0x62, bar, 0x63]⟩, ⟨[0x62, bar, 0x63], [bar, 0x63]⟩, ⟨[0x63], []⟩] ∧
      buf' = [0x61, 0, 0x62, 0, 0x63, 0] := ⟨_, _, rfl, rfl, rfl⟩
  obtain ⟨cmd, buf', parsed, words, bytes⟩ := accepted
  have second : ⟨[0x62, bar, 0x63], [bar, 0x63]⟩ ∈ cmd.words := by simp [words]
  exact ⟨cmd, buf', _, _, _, parsed, words, bytes, ((nulterminate_harmless parsed).1 _ second).2⟩

end

end Xv6.Shell
