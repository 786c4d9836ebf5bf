import Xv6.Fs.Balance
import Xv6.Fs.DirMap

/-!
# Path names

What `namex` does with a path. `skipelem` takes the elements of the path off one after the other, the maximal runs of
characters other than `/`, and leaves them in one buffer, unterminated if they are `DIRSIZ` bytes or longer and with
leftovers of earlier elements behind them if they are shorter. `walk` is the walk along a list of names.
-/

namespace Xv6.Fs

open Xv6.Lib Xv6.Lib.Eff

/-- The elements of a path. -/
def elements (path : List Byte) : List (List Byte) := (path.splitOnP (· = slash)).filter (· ≠ [])

/-- Look up the names one after the other, from the directory `ip` on; with `parent` stop at the last one. `last` is the name
looked at last. -/
def walk (parent : Bool) (ip : Fin NINODE) (last : List Byte) : List (List Byte) → M (Option (Fin NINODE × List Byte))
  | [] =>
    if parent then do
      iput ip
      pure none
    else pure (some (ip, last))
  | name :: names => do
    ilock ip
    let s ← state
    if (s.icache ip).copy.type ≠ .dir then do
      iunlockput ip
      pure none
    else if parent ∧ names = [] then do
      iunlock ip
      pure (some (ip, name))
    else do
      let next ← dirlookup ip name
      iunlockput ip
      match next with
      | none => pure none
      | some (next, _) => walk parent next name names

section
variable {path name name' elem : List Byte} {i : Fin NINODE}

theorem dropWhile_stops {p : Byte → Bool} {c : Byte} (is : path.dropWhile p = c :: elem) : p c = false := by
  have stops := List.head_dropWhile_not p (l := path) (by simp only [is, ne_eq, reduceCtorEq, not_false_eq_true])
  simpa only [is, List.head_cons] using stops

theorem elements_slash : elements (slash :: path) = elements path := by
  simp [elements, List.splitOnP_cons_eq_if_modifyHead]

/-- The first element of a path that does not start with a slash. -/
theorem elements_cons {c : Byte} (first : c ≠ slash) : elements (c :: path) =
    (c :: path).takeWhile (· ≠ slash) :: elements ((c :: path).dropWhile (· ≠ slash)) := by
  have inside : ∀ d ∈ (c :: path).takeWhile (· ≠ slash), (fun d : Byte => decide (d = slash)) d = false := fun d member => by
    simpa using List.mem_takeWhile_imp member
  have some_ : (c :: path).takeWhile (· ≠ slash) ≠ [] := by simp [first]
  have split : (c :: path).takeWhile (· ≠ slash) ++ (c :: path).dropWhile (· ≠ slash) = c :: path :=
    List.takeWhile_append_dropWhile
  cases left : (c :: path).dropWhile (· ≠ slash) with
  | nil =>
    rw [left, List.append_nil] at split
    rw [split] at inside ⊢
    simp [elements, List.splitOnP_eq_singleton inside]
  | cons d rest =>
    have sep : d = slash := by simpa using dropWhile_stops left
    rw [left, sep] at split
    conv_lhs => rw [← split]
    rw [sep, elements_slash, elements, List.splitOnP_append_cons_of_forall_mem inside slash (by simp), List.filter_cons_of_pos
      (by simpa using some_)]
    rfl

theorem elements_dropWhile : elements (path.dropWhile (· = slash)) = elements path := by
  induction path with
  | nil => rfl
  | cons c path ih =>
    by_cases is : c = slash
    · rw [List.dropWhile_cons_of_pos (by simpa using is), ih, is, elements_slash]
    · rw [List.dropWhile_cons_of_neg (by simpa using is)]

/-- A C string without its terminator. -/
theorem takeWhile_noNul (noNul : 0 ∉ elem) : elem.takeWhile (· ≠ 0) = elem :=
  List.takeWhile_eq_self_iff.2 fun c member => by simpa using fun zero : c = 0 => noNul (zero ▸ member)

/-- The buffer holds the element, cut off. -/
theorem key_copyElem (noNul : 0 ∉ elem) : key (copyElem name elem) = elem.take DIRSIZ := by
  unfold key cut copyElem
  split_ifs with long
  · rw [takeWhile_noNul fun zero => noNul (List.mem_of_mem_take zero), List.take_take, min_self]
  · rw [List.takeWhile_append, takeWhile_noNul noNul]
    simp

/-- **What `skipelem` does**: it takes the first element off the path, or there is none. -/
theorem skipelem_spec (noNul : 0 ∉ path) :
    (skipelem path name = none ∧ elements path = []) ∨
      ∃ path' name' elem, skipelem path name = some (path', name') ∧ elements path = elem :: elements path' ∧
        key name' = elem.take DIRSIZ ∧ (path' = [] ↔ elements path' = []) ∧ 0 ∉ path' := by
  rw [← @elements_dropWhile path]
  cases front : path.dropWhile (· = slash) with
  | nil => exact .inl ⟨by simp [skipelem, front], rfl⟩
  | cons c tail =>
    have within : ∀ d ∈ c :: tail, d ∈ path := fun d member => (List.dropWhile_sublist _).subset (front ▸ member)
    refine .inr ⟨((c :: tail).dropWhile (· ≠ slash)).dropWhile (· = slash), copyElem name ((c :: tail).takeWhile (· ≠ slash)),
      (c :: tail).takeWhile (· ≠ slash), ?_, ?_, ?_, ?_, fun zero => ?_⟩
    · unfold skipelem
      dsimp only
      rw [front, if_neg (List.cons_ne_nil _ _)]
    · rw [elements_dropWhile]
      exact elements_cons (by simpa using dropWhile_stops front)
    · exact key_copyElem fun zero => noNul (within 0 ((List.takeWhile_sublist _).subset zero))
    · constructor
      · intro none
        rw [none]
        rfl
      · intro none
        cases left : ((c :: tail).dropWhile (· ≠ slash)).dropWhile (· = slash) with
        | nil => rfl
        | cons d rest =>
          rw [left, elements_cons (by simpa using dropWhile_stops left)] at none
          cases none
    · exact noNul (within 0 ((List.dropWhile_sublist _).subset ((List.dropWhile_sublist _).subset zero)))

theorem key_key : key (key name) = key name := by
  have noNul : 0 ∉ key name := fun zero => by simpa using List.mem_takeWhile_imp (List.mem_of_mem_take zero)
  have short : (key name).length ≤ DIRSIZ := List.length_take_le _ _
  calc key (key name) = ((key name).takeWhile (· ≠ 0)).take DIRSIZ := rfl
    _ = key name := by rw [takeWhile_noNul noNul, List.take_of_length_le short]

theorem dirlookup_congr (same : key name = key name') : dirlookup i name = dirlookup i name' := by
  have loop (offs : List Nat) : dirlookupLoop i name offs = dirlookupLoop i name' offs := by
    induction offs with
    | nil => rfl
    | cons off offs ih =>
      unfold dirlookupLoop
      rw [ih]
      simp only [namecmp_eq_zero_iff, same]
  unfold dirlookup
  simp only [loop]

/-- What a caller sees of the buffer. -/
def shown (found : Option (Fin NINODE × List Byte)) : Option (Fin NINODE × List Byte) := found.map fun q => (q.1, key q.2)

theorem namexLoop_walk {rounds : Nat} {parent : Bool} (enough : path.length < rounds) (noNul : 0 ∉ path) :
    (namexLoop rounds parent i path name >>= fun r => pure (shown r)) =
      walk parent i (key name) ((elements path).map (List.take DIRSIZ)) := by
  induction rounds generalizing i path name with
  | zero => cases enough
  | succ rounds ih =>
    unfold namexLoop
    rcases @skipelem_spec path name noNul with ⟨skipped, none⟩ | ⟨path', name', elem, skipped, first, last, ends, noNul'⟩
    · rw [skipped, none, List.map_nil, walk]
      dsimp only
      split_ifs
      · rw [bind_bind]
        rfl
      · rfl
    · have shorter := skipelem_shorter skipped
      rw [skipped, first, List.map_cons, ← last, walk]
      dsimp only
      rw [bind_bind]
      refine congrArg (ilock i >>= ·) (funext fun _ => ?_)
      rw [bind_bind]
      refine congrArg (state >>= ·) (funext fun s => ?_)
      simp only [List.map_eq_nil_iff, ← ends]
      split_ifs
      · rw [bind_bind]
        rfl
      · rw [bind_bind]
        rfl
      · rw [bind_bind, dirlookup_congr key_key]
        refine congrArg (dirlookup i name' >>= ·) (funext fun next => ?_)
        rw [bind_bind]
        refine congrArg (iunlockput i >>= ·) (funext fun _ => ?_)
        rcases next with _ | ⟨next, off⟩
        · rfl
        · exact ih (by omega) noNul'

/-- **`namex` walks along the elements of the path**, each cut off at `DIRSIZ` bytes, from the root if the path starts with a
slash and from the current directory otherwise: it makes the calls of the walk and returns what the walk returns. -/
theorem namex_walks (cwd : Fin NINODE) (parent : Bool) (noNul : 0 ∉ path) :
    (namex cwd path parent >>= fun r => pure (shown r)) = (do
      let ip ← (if path.head? = some slash then iget ROOTINO else idup cwd)
      walk parent ip [] ((elements path).map (List.take DIRSIZ))) := by
  unfold namex
  rw [bind_bind]
  exact congrArg _ (funext fun ip => namexLoop_walk (Nat.lt_succ_self _) noNul)

/-- `"//a/b"` -/
theorem namex_walks_slashes : (namex 0 [slash, slash, 97, slash, 98] true >>= fun r => pure (shown r)) = (do
    let ip ← iget ROOTINO
    walk true ip [] [[97], [98]]) :=
  namex_walks 0 true (by decide)

end

end Xv6.Fs
