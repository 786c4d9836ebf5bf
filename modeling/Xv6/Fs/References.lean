import Xv6.Fs.Balance

/-!
# The calls balance their references

Every file system call, on each path that returns, and the system of all processes:
an entry of the inode cache is referenced once for each open file and each current
directory that points to it.
-/

namespace Xv6.Fs

open Xv6.Lib Xv6.Lib.Eff

variable {refs : Fin NINODE → Nat} {s s' : State} {i j cwd : Fin NINODE}

/-! ## Calls that work on names -/

theorem lock_comm (i j : Fin NINODE) : lock (lock unlocked i) j = lock (lock unlocked j) i := by
  rcases eq_or_ne i j with rfl | ne
  · rfl
  · exact Function.update_comm ne ..

/-- A second inode that is locked is another one. -/
theorem apart_of_lock (free : lock unlocked i j = false) : lock unlocked j i = false := by
  have ne : j ≠ i := by
    rintro rfl
    simp at free
  exact Function.update_of_ne ne.symm ..

/-- The first of two locked inodes is unlocked and put. -/
theorem iunlockput_first (balance : Balance refs (lock (lock unlocked i) j) s) (free : lock unlocked i j = false) :
    returns (iunlockput i) (fun _ s' => Balance (drop refs i) (lock unlocked j) s') s :=
  iunlockput_balance (lock_comm i j ▸ balance) (apart_of_lock free)

theorem sysLink_balance (old new : List Byte) (balance : Balance refs unlocked s) (pos : 0 < refs cwd) :
    returns (sysLink cwd old new) (fun _ s' => Balance refs unlocked s') s := by
  refine returns_bind (namei_balance old balance pos) fun found s1 balance1 => ?_
  cases found with
  | none => exact returns_pure balance1
  | some ip =>
    refine returns_bind (ilock_balance balance1) fun _ s2 locked2 => returns_state_bind ?_
    refine returns_ite (fun _ => ?_) fun _ => ?_
    · exact returns_put locked2.2.2 rfl fun _ done => done
    · refine locked2.2.2.skip (setCopy_refs ip _) fun _ s3 balance3 => ?_
      refine balance3.skip (iupdate_refs ip) fun _ s4 balance4 => ?_
      refine returns_bind (iunlock_balance balance4 rfl) fun _ s5 balance5 => ?_
      refine returns_bind (nameiparent_balance new balance5 (bump_pos pos)) fun parent s6 balance6 => ?_
      refine returns_bind (Q := fun _ s' => Balance (bump refs ip) unlocked s') ?_ fun linked s7 balance7 => ?_
      · rcases parent with _ | ⟨dp, name⟩
        · exact returns_pure balance6
        · refine returns_bind (ilock_balance balance6) fun _ s7 locked7 => returns_state_bind ?_
          refine returns_bind (dirlink_balance locked7.2.2 name _) fun linked s8 balance8 => ?_
          exact returns_put balance8 rfl fun _ done => done
      · refine returns_ite (fun _ => ?_) fun _ => ?_
        · refine returns_bind (iput_balance balance7 (by simp)) fun _ s8 balance8 => returns_pure ?_
          simpa using balance8
        · refine returns_bind (ilock_balance balance7) fun _ s8 locked8 => ?_
          refine locked8.2.2.skip (setCopy_refs ip _) fun _ s9 balance9 => ?_
          refine balance9.skip (iupdate_refs ip) fun _ s10 balance10 => ?_
          exact returns_put balance10 rfl fun _ done => done

theorem sysUnlink_balance (path : List Byte) (balance : Balance refs unlocked s) (pos : 0 < refs cwd) :
    returns (sysUnlink cwd path) (fun _ s' => Balance refs unlocked s') s := by
  refine returns_bind (nameiparent_balance path balance pos) fun parent s1 balance1 => ?_
  rcases parent with _ | ⟨dp, name⟩
  · exact returns_pure balance1
  · refine returns_bind (ilock_balance balance1) fun _ s2 locked2 => ?_
    refine returns_ite (fun _ => returns_put locked2.2.2 rfl fun _ done => done) fun _ => ?_
    refine returns_bind (dirlookup_balance locked2.2.2 name) fun found s3 balance3 => ?_
    rcases found with _ | ⟨ip, off⟩
    · exact returns_put balance3 rfl fun _ done => done
    · refine returns_bind (ilock_balance balance3) fun _ s4 locked4 => returns_state_bind ?_
      have apart := locked4.1
      refine returns_ite (fun _ => returns_fail) fun _ => ?_
      refine locked4.2.2.skip (keeps_ite (isdirempty_refs ip) keeps_pure) fun empty s5 balance5 => ?_
      refine returns_ite (fun _ => ?_) fun _ => ?_
      · refine balance5.skip (writei_refs dp off _) fun done s6 balance6 => ?_
        refine returns_ite (fun _ => ?_) fun _ => returns_fail
        refine balance6.skip (keeps_ite (keeps_bind (setCopy_refs dp _) fun _ => iupdate_refs dp) keeps_pure)
          fun _ s7 balance7 => ?_
        refine returns_bind (iunlockput_first balance7 apart) fun _ s8 balance8 => ?_
        refine balance8.skip (setCopy_refs ip _) fun _ s9 balance9 => ?_
        refine balance9.skip (iupdate_refs ip) fun _ s10 balance10 => ?_
        refine returns_bind (iunlockput_balance balance10 rfl) fun _ s11 balance11 => returns_pure ?_
        simpa [drop_bump_bump] using balance11
      · refine returns_bind (iunlockput_balance balance5 apart) fun _ s6 balance6 => ?_
        exact returns_put (by simpa using balance6) rfl fun _ done => done

theorem createDots_balance {dp ip : Fin NINODE} {locked : Fin NINODE → Bool} (balance : Balance refs locked s) :
    returns (createDots dp ip) (fun _ s' => Balance refs locked s') s := by
  refine balance.skip (setCopy_refs dp _) fun _ s1 balance1 => balance1.skip (iupdate_refs dp) fun _ s2 balance2 => ?_
  refine returns_state_bind (returns_bind (dirlink_balance balance2 dot _) fun own s3 balance3 => ?_)
  refine returns_ite (fun _ => ?_) fun _ => returns_fail
  refine returns_bind (dirlink_balance balance3 dotdot _) fun up s4 balance4 => ?_
  exact returns_ite (fun _ => returns_pure balance4) fun _ => returns_fail

/-- What `create` returns is locked, and one more reference. -/
def Created (refs : Fin NINODE → Nat) (s' : State) : Option (Fin NINODE) → Prop
  | none => Balance refs unlocked s'
  | some ip => Balance (bump refs ip) (lock unlocked ip) s'

theorem create_balance (path : List Byte) (type : FileType) (major minor : BitVec 16) (balance : Balance refs unlocked s)
    (pos : 0 < refs cwd) : returns (create cwd path type major minor) (fun r s' => Created refs s' r) s := by
  refine returns_bind (nameiparent_balance path balance pos) fun parent s1 balance1 => ?_
  rcases parent with _ | ⟨dp, name⟩
  · exact returns_pure balance1
  · refine returns_bind (ilock_balance balance1) fun _ s2 locked2 => ?_
    refine returns_bind (dirlookup_balance locked2.2.2 name) fun found s3 balance3 => ?_
    rcases found with _ | ⟨ip, off⟩
    · refine returns_bind (ialloc_balance balance3 type) fun ip s4 balance4 => ?_
      refine returns_bind (ilock_balance balance4) fun _ s5 locked5 => ?_
      refine locked5.2.2.skip (setCopy_refs ip _) fun _ s6 balance6 => ?_
      refine balance6.skip (iupdate_refs ip) fun _ s7 balance7 => ?_
      refine returns_bind (returns_ite (fun _ => createDots_balance balance7) fun _ => returns_pure balance7)
        fun _ s8 balance8 => returns_state_bind ?_
      refine returns_bind (dirlink_balance balance8 name _) fun linked s9 balance9 => ?_
      refine returns_ite (fun _ => ?_) fun _ => returns_fail
      refine returns_bind (iunlockput_first balance9 locked5.1) fun _ s10 balance10 => returns_pure ?_
      simpa [Created, drop_bump_bump] using balance10
    · refine returns_bind (iunlockput_balance balance3 rfl) fun _ s4 balance4 => ?_
      have balance4' : Balance (bump refs ip) unlocked s4 := by simpa [drop_bump_bump] using balance4
      refine returns_bind (ilock_balance balance4') fun _ s5 locked5 => returns_state_bind ?_
      refine returns_ite (fun _ => returns_pure locked5.2.2) fun _ => ?_
      exact returns_put locked5.2.2 rfl fun _ done => done

theorem openInode_balance (path : List Byte) (omode : BitVec 32) (balance : Balance refs unlocked s) (pos : 0 < refs cwd) :
    returns (openInode cwd path omode) (fun r s' => Created refs s' r) s := by
  refine returns_ite (fun _ => create_balance path _ _ _ balance pos) fun _ => ?_
  refine returns_bind (namei_balance path balance pos) fun found s1 balance1 => ?_
  cases found with
  | none => exact returns_pure balance1
  | some ip =>
    refine returns_bind (ilock_balance balance1) fun _ s2 locked2 => returns_state_bind ?_
    refine returns_ite (fun _ => ?_) fun _ => returns_pure locked2.2.2
    exact returns_put locked2.2.2 rfl fun _ done => done

theorem sysOpen_balance (path : List Byte) (omode : BitVec 32) (room : Bool) (balance : Balance refs unlocked s)
    (pos : 0 < refs cwd) :
    returns (sysOpen cwd path omode room)
      (fun r s' => Balance (gained refs r) unlocked s' ∧ (room = false → r = none)) s := by
  refine returns_bind (openInode_balance path omode balance pos) fun opened s1 created => ?_
  cases opened with
  | none => exact returns_pure ⟨created, fun _ => rfl⟩
  | some ip =>
    refine returns_ite (fun yes => ?_) fun _ => ?_
    · refine returns_bind (iunlock_balance created rfl) fun _ s2 balance2 => returns_pure ⟨balance2, ?_⟩
      simp [yes]
    · refine returns_bind (iunlockput_balance created rfl) fun _ s2 balance2 => returns_pure ⟨?_, fun _ => rfl⟩
      simpa using balance2

/-- `mkdir` and `mknod`: the new inode is put at once. -/
theorem make_balance (path : List Byte) (type : FileType) (major minor : BitVec 16) (balance : Balance refs unlocked s)
    (pos : 0 < refs cwd) :
    returns (do
      let made ← create cwd path type major minor
      match made with
      | none => pure (-1)
      | some ip => do
        iunlockput ip
        pure 0) (fun (_ : Int) s' => Balance refs unlocked s') s := by
  refine returns_bind (create_balance path type major minor balance pos) fun made s1 created => ?_
  cases made with
  | none => exact returns_pure created
  | some ip =>
    exact returns_put created rfl fun _ done => done

theorem sysChdir_balance (path : List Byte) (balance : Balance refs unlocked s) (pos : 0 < refs cwd) :
    returns (sysChdir cwd path) (fun r s' => match r with
      | none => Balance refs unlocked s'
      | some ip => Balance (drop (bump refs ip) cwd) unlocked s') s := by
  refine returns_bind (namei_balance path balance pos) fun found s1 balance1 => ?_
  cases found with
  | none => exact returns_pure balance1
  | some ip =>
    refine returns_bind (ilock_balance balance1) fun _ s2 locked2 => returns_state_bind ?_
    refine returns_ite (fun _ => ?_) fun _ => ?_
    · exact returns_put locked2.2.2 rfl fun _ done => done
    · refine returns_bind (iunlock_balance locked2.2.2 rfl) fun _ s3 balance3 => ?_
      exact returns_bind (iput_balance balance3 (by simp)) fun _ s4 balance4 => returns_pure balance4

theorem exec_balance (path : List Byte) (reads : List (Nat × Nat)) (balance : Balance refs unlocked s) (pos : 0 < refs cwd) :
    returns (exec cwd path reads) (fun _ s' => Balance refs unlocked s') s := by
  refine returns_bind (namei_balance path balance pos) fun found s1 balance1 => ?_
  cases found with
  | none => exact returns_pure balance1
  | some ip =>
    refine returns_bind (ilock_balance balance1) fun _ s2 locked2 => ?_
    refine locked2.2.2.skip (keeps_forEach (fun request => ?_) reads) fun _ s3 balance3 => ?_
    · exact keeps_bind (readi_refs ip _ _) fun _ => keeps_pure
    · exact returns_put balance3 rfl fun _ done => done

/-- A chunk of `filewrite`, and `fileread`. -/
theorem locked_balance {α : Type} {m : M α} (kept : Keeps SameRefs m) (balance : Balance refs unlocked s) :
    returns (do
      ilock i
      let r ← m
      iunlock i
      pure r) (fun _ s' => Balance refs unlocked s') s := by
  refine returns_bind (ilock_balance balance) fun _ s1 locked1 => locked1.2.2.skip kept fun r s2 balance2 => ?_
  exact returns_bind (iunlock_balance balance2 rfl) fun _ s3 balance3 => returns_pure balance3

theorem transaction_balance {α : Type} {m : M α} {Q : α → State → Prop}
    (body : ∀ s', SameRefs s s' → returns m Q s') (closed : ∀ r s' s'', Q r s' → SameRefs s' s'' → Q r s'') :
    returns (transaction m) Q s := by
  refine returns_update_bind (returns_bind (body _ (.of_icache rfl)) fun r s' post => ?_)
  exact returns_update_bind (returns_pure (closed r s' _ post (.of_icache rfl)))

/-! ## The system -/

/-- The entry of the inode cache that an open file points to. -/
def File.target (file : File) : Option (Fin NINODE) := if 0 < file.ref ∧ file.type = .inode then some file.ip else none

namespace System

variable {s s' : System} {f : Fin NFILE} {p : Fin NPROC} {ip : Fin NINODE}

/-- The open files and current directories that point to entry `i`. -/
def holders (s : System) (i : Fin NINODE) : Nat :=
  occurrences (fun f => (s.ftable f).target) (some i) + occurrences (fun p => (s.proc p).map Proc.cwd) (some i)

theorem holders_setFile (s : System) (f : Fin NFILE) (file : File) (i : Fin NINODE) :
    holders (s.setFile f file) i + (if (s.ftable f).target = some i then 1 else 0) =
      holders s i + (if file.target = some i then 1 else 0) := by
  have table : (fun g => ((s.setFile f file).ftable g).target) =
      Function.update (fun g => (s.ftable g).target) f file.target := Function.comp_update File.target ..
  have moved := occurrences_update (fun g => (s.ftable g).target) f file.target (some i)
  unfold holders
  rw [table]
  simp only [setFile]
  omega

theorem holders_setProc (s : System) (p : Fin NPROC) (q : Option Proc) (i : Fin NINODE) :
    holders (s.setProc p q) i + (if (s.proc p).map Proc.cwd = some i then 1 else 0) =
      holders s i + (if q.map Proc.cwd = some i then 1 else 0) := by
  have table : (fun r => ((s.setProc p q).proc r).map Proc.cwd) =
      Function.update (fun r => (s.proc r).map Proc.cwd) p (q.map Proc.cwd) := Function.comp_update (Option.map Proc.cwd) ..
  have moved := occurrences_update (fun r => (s.proc r).map Proc.cwd) p (q.map Proc.cwd) (some i)
  unfold holders
  rw [table]
  simp only [setProc]
  omega

/-- What one file or process points to changes from `old` to `new`. -/
theorem eq_of_moved {n m : Fin NINODE → Nat} {old new : Option (Fin NINODE)}
    (moved : ∀ i, m i + (if old = some i then 1 else 0) = n i + (if new = some i then 1 else 0)) :
    m = old.elim (gained n new) (drop (gained n new)) := by
  funext i
  have := moved i
  have more : gained n new i = n i + (if new = some i then 1 else 0) := by
    cases new with
    | none => simp
    | some b => simp [bump, Function.update_apply, eq_comm]; split <;> simp_all
  cases old with
  | none =>
    simp only [reduceCtorEq, if_false] at this
    simp only [Option.elim]
    omega
  | some a =>
    simp only [Option.elim, drop, Function.update_apply]
    simp only [Option.some.injEq] at this
    split_ifs with is
    · rw [← is, more]
      rw [if_pos is.symm] at this
      omega
    · rw [more]
      rw [if_neg (Ne.symm is)] at this
      omega

theorem holders_pos {q : Proc} (has : s.proc p = some q) : 0 < holders s q.cwd := by
  have : 0 < occurrences (fun r => (s.proc r).map Proc.cwd) (some q.cwd) := occurrences_pos (i := p) (by simp [has])
  unfold holders
  omega

/-- In every state between calls the references are those of the open files and the current directories. -/
def Referenced (s : System) : Prop := Balance s.holders unlocked s.fs

theorem after_ok {α : Type} {m : M α} {next : α → System → System} {Q : α → State → Prop} {t : List Effect}
    (post : returns m Q s.fs) (ran : s.after m next = (.ok s', t)) :
    ∃ r fs, Q r fs ∧ s' = next r { s with fs := fs } := by
  unfold after at ran
  generalize out : m s.fs = result at ran
  obtain ⟨e | r, fs, t'⟩ := result
  · cases ran
  · cases ran
    exact ⟨r, fs, post.apply out, rfl⟩

section
variable (ref : Referenced s)
include ref

/-- A call that leaves files and processes alone. -/
theorem after_quiet {α : Type} {m : M α} {t : List Effect}
    (body : ∀ fs, Balance s.holders unlocked fs → returns m (fun _ fs' => Balance s.holders unlocked fs') fs)
    (ran : s.after (transaction m) (fun _ s => s) = (.ok s', t)) : Referenced s' := by
  have post := transaction_balance (s := s.fs) (fun fs same => body fs (ref.same same)) fun _ _ _ => Balance.same
  obtain ⟨_, fs, balance, rfl⟩ := after_ok post ran
  exact balance

theorem referenced_setFile {file : File} (same : file.target = (s.ftable f).target) :
    Referenced (s.setFile f file) := by
  have holders : (s.setFile f file).holders = s.holders := by
    funext i
    have := holders_setFile s f file i
    rw [same] at this
    omega
  unfold Referenced
  rw [holders]
  exact ref

/-- Only the descriptors of a process change. -/
theorem referenced_setProc {q q' : Proc} (has : s.proc p = some q) (same : q'.cwd = q.cwd) :
    Referenced (s.setProc p (some q')) := by
  have holders : (s.setProc p (some q')).holders = s.holders := by
    funext i
    have := holders_setProc s p (some q') i
    simp only [has, Option.map, same] at this
    omega
  unfold Referenced
  rw [holders]
  exact ref

theorem filedup_ok (ran : s.filedup f = .ok s') :
    Referenced s' ∧ s'.proc = s.proc := by
  unfold filedup at ran
  split at ran
  · cases ran
  · cases ran
    refine ⟨referenced_setFile ref ?_, rfl⟩
    have used : 0 < (s.ftable f).ref := by omega
    simp [File.target, used]

theorem filedupAll_ok {q : Proc} (ran : s.filedupAll q = .ok s') :
    Referenced s' ∧ s'.proc = s.proc := by
  unfold filedupAll at ran
  generalize List.range NOFILE = fds at ran
  induction fds generalizing s with
  | nil =>
    cases ran
    exact ⟨ref, rfl⟩
  | cons fd fds ih =>
    rw [List.foldlM_cons] at ran
    cases is : q.ofile fd with
    | none =>
      rw [is] at ran
      exact ih ref ran
    | some f =>
      rw [is] at ran
      change (s.filedup f >>= fun s => List.foldlM _ s fds) = _ at ran
      cases first : s.filedup f with
      | error e =>
        rw [first] at ran
        cases ran
      | ok s1 =>
        rw [first] at ran
        obtain ⟨ref1, same1⟩ := filedup_ok ref first
        obtain ⟨ref', same⟩ := ih ref1 ran
        exact ⟨ref', same.trans same1⟩

theorem fileclose_ok {t : List Effect} (ran : s.fileclose f = (.ok s', t)) : Referenced s' := by
  unfold fileclose at ran
  split_ifs at ran with unused more
  · cases ran
  · cases ran
    refine referenced_setFile ref ?_
    have used : 0 < (s.ftable f).ref ∧ 0 < (s.ftable f).ref - 1 := by omega
    simp [File.target, used]
  · have last : 0 < (s.ftable f).ref := by omega
    have moved := eq_of_moved (holders_setFile s f { s.ftable f with ref := 0, type := .none })
    dsimp only at ran
    split at ran
    · rename_i plain
      cases ran
      refine referenced_setFile ref ?_
      simp [File.target, plain]
    · rename_i inode
      have target : (s.ftable f).target = some (s.ftable f).ip := by simp [File.target, inode, last]
      rw [target] at moved
      have post : returns (transaction (iput (s.ftable f).ip))
          (fun _ fs => Balance (drop s.holders (s.ftable f).ip) unlocked fs)
          (s.setFile f { s.ftable f with ref := 0, type := .none }).fs :=
        transaction_balance (fun fs same => iput_balance (ref.same same) (by simp)) fun _ _ _ => Balance.same
      obtain ⟨_, fs, balance, rfl⟩ := after_ok post ran
      unfold Referenced
      change Balance (holders (s.setFile f _)) unlocked fs
      rw [moved]
      exact balance

end

/-- `read`, and a chunk of `write`: of the files only an offset changes. -/
theorem advance_ok {α : Type} {m : M α} (count : α → Nat) {t : List Effect}
    (post : returns m (fun _ fs => Balance s.holders unlocked fs) s.fs)
    (ran : s.after m (fun r s => s.advance f (count r)) = (.ok s', t)) : Referenced s' := by
  obtain ⟨r, fs, balance, rfl⟩ := after_ok post ran
  exact referenced_setFile (s := { s with fs := fs }) balance rfl

theorem filewrite_ok {src : List Byte} {t : List Effect} (ref : Referenced s) (ran : s.filewrite f src = (.ok s', t)) :
    Referenced s' := by
  unfold filewrite at ran
  split at ran
  · split at ran
    · cases ran
    · refine advance_ok (fun r : Option Nat => r.getD 0) (transaction_balance (fun fs same => ?_) fun _ _ _ => Balance.same) ran
      exact locked_balance (writei_refs _ _ _) (ref.same same)
  · cases ran
    exact ref

theorem fileread_ok {n : Nat} {t : List Effect} (ref : Referenced s) (ran : s.fileread f n = (.ok s', t)) : Referenced s' := by
  unfold fileread at ran
  split at ran
  · split at ran
    · cases ran
    · exact advance_ok (fun r : Option (List Byte) => (r.getD []).length) (locked_balance (readi_refs _ _ _) ref) ran
  · cases ran
    exact ref

/-- The new file is one more holder of what was opened. -/
theorem install_ok {q : Proc} {omode : BitVec 32} {opened : Option (Fin NINODE)} (has : s.proc p = some q)
    (balance : Balance (gained s.holders opened) unlocked s.fs)
    (room : opened ≠ none → (filealloc s.ftable).isSome ∧ (fdalloc q).isSome) :
    Referenced (s.install p q omode opened) := by
  cases opened with
  | none => exact balance
  | some ip =>
    obtain ⟨file, desc⟩ := room (by simp)
    obtain ⟨f, found⟩ := Option.isSome_iff_exists.1 file
    obtain ⟨fd, free⟩ := Option.isSome_iff_exists.1 desc
    have unused : (s.ftable f).ref = 0 := by simpa using List.find?_some found
    have installed : s.install p q omode (some ip) =
        (s.setFile f (openedFile ip omode)).setProc p (some { q with ofile := Function.update q.ofile fd (some f) }) := by
      unfold install
      rw [found, free]
    have moved := eq_of_moved (holders_setFile s f (openedFile ip omode))
    have before : (s.ftable f).target = none := by simp [File.target, unused]
    have after : (openedFile ip omode).target = some ip := by simp [File.target, openedFile]
    rw [before, after] at moved
    rw [installed]
    refine referenced_setProc (q := q) ?_ has rfl
    unfold Referenced
    rw [moved]
    exact balance

/-- **A system call keeps the reference counts.** -/
theorem perform_ok {q : Proc} {c : Call} {t : List Effect} (ref : Referenced s) (has : s.proc p = some q)
    (ran : s.perform p q c = some (.ok s', t)) : Referenced s' := by
  have pos := holders_pos has
  cases c with
  | «open» path omode =>
    have post := transaction_balance (s := s.fs) (fun fs same => sysOpen_balance path omode
      (decide ((filealloc s.ftable).isSome ∧ (fdalloc q).isSome)) (ref.same same) pos)
      fun r fs fs' post same => ⟨post.1.same same, post.2⟩
    obtain ⟨opened, fs, ⟨balance, room⟩, rfl⟩ := after_ok post (Option.some.inj ran)
    refine install_ok (s := { s with fs := fs }) has balance fun some_ => ?_
    by_contra full
    exact some_ (room (by simpa using full))
  | link old new => exact after_quiet ref (fun fs balance => sysLink_balance old new balance pos) (Option.some.inj ran)
  | unlink path => exact after_quiet ref (fun fs balance => sysUnlink_balance path balance pos) (Option.some.inj ran)
  | mkdir path => exact after_quiet ref (fun fs balance => make_balance path _ _ _ balance pos) (Option.some.inj ran)
  | mknod path major minor =>
    exact after_quiet ref (fun fs balance => make_balance path _ _ _ balance pos) (Option.some.inj ran)
  | exec path reads => exact after_quiet ref (fun fs balance => exec_balance path reads balance pos) (Option.some.inj ran)
  | chdir path =>
    have post := transaction_balance (s := s.fs) (fun fs same => sysChdir_balance path (ref.same same) pos)
      fun r fs fs' post same => by cases r <;> exact post.same same
    obtain ⟨moved, fs, balance, rfl⟩ := after_ok post (Option.some.inj ran)
    cases moved with
    | none => exact balance
    | some ip =>
      have moved := eq_of_moved (holders_setProc { s with fs := fs } p (some { q with cwd := ip }))
      simp only [has, Option.map] at moved
      unfold Referenced
      rw [moved]
      exact balance
  | close fd =>
    simp only [perform] at ran
    split at ran
    · cases ran
      exact ref
    · rename_i f _
      have closed : Referenced (s.setProc p (some { q with ofile := Function.update q.ofile fd none })) :=
        referenced_setProc ref has rfl
      exact fileclose_ok closed (Option.some.inj ran)
  | write fd src =>
    simp only [perform] at ran
    split at ran
    · split at ran
      · cases ran
        exact ref
      · exact filewrite_ok ref (Option.some.inj ran)
    · cases ran
  | read fd n =>
    simp only [perform] at ran
    split at ran
    · cases ran
      exact ref
    · exact fileread_ok ref (Option.some.inj ran)
  | dup fd =>
    simp only [perform] at ran
    split at ran
    · rename_i f new _ _
      cases dup : s.filedup f with
      | error e =>
        rw [dup] at ran
        cases ran
      | ok s1 =>
        rw [dup] at ran
        cases ran
        obtain ⟨ref1, same⟩ := filedup_ok ref dup
        exact referenced_setProc (q := q) ref1 (same ▸ has) rfl
    · cases ran
      exact ref
  | fork child =>
    simp only [perform] at ran
    split at ran
    · rename_i free
      cases dup : s.filedupAll q with
      | error e =>
        rw [dup] at ran
        cases ran
      | ok s1 =>
        rw [dup] at ran
        obtain ⟨ref1, same⟩ := filedupAll_ok ref dup
        have pos1 := holders_pos (s := s1) (p := p) (q := q) (same ▸ has)
        obtain ⟨_, fs, ⟨rfl, balance⟩, rfl⟩ := after_ok (idup_balance ref1 pos1) (Option.some.inj ran)
        have moved := eq_of_moved (holders_setProc { s1 with fs := fs } child (some q))
        simp only [show s1.proc child = none from same ▸ free, Option.map] at moved
        unfold Referenced
        rw [moved]
        exact balance
    · cases ran
  | exit =>
    simp only [perform] at ran
    split at ran
    · have post := transaction_balance (s := s.fs) (fun fs same => iput_balance (i := q.cwd) (ref.same same) (by simp))
        fun _ _ _ => Balance.same
      obtain ⟨_, fs, balance, rfl⟩ := after_ok post (Option.some.inj ran)
      have moved := eq_of_moved (holders_setProc { s with fs := fs } p none)
      simp only [has, Option.map] at moved
      unfold Referenced
      rw [moved]
      exact balance
    · cases ran

theorem step_ok {e : Fin NPROC × Call} (ref : Referenced s) (taken : step s e = some s') : Referenced s' := by
  unfold step call at taken
  split at taken
  · rename_i s1 t ran
    cases taken
    split at ran
    · cases ran
    · exact perform_ok ref ‹_› ran
  · cases taken

theorem namei_root (disk : Disk) : namei 0 [slash] disk.boot =
    (.ok (some 0), disk.boot.setInode 0 ⟨ROOTINO, 1, false, false, .blank .free⟩, []) := rfl

theorem userinit_ok (disk : Disk) : Referenced (userinit disk) := by
  let empty : System := ⟨disk.boot.setInode 0 ⟨ROOTINO, 1, false, false, .blank .free⟩,
    fun _ => ⟨.none, 0, false, false, 0, 0⟩, fun _ => none⟩
  have nobody : empty.holders = fun _ => 0 := by
    funext i
    have files : occurrences (fun f => (empty.ftable f).target) (some i) = 0 :=
      occurrences_eq_zero_iff.2 fun f => by simp [empty, File.target]
    have procs : occurrences (fun p => (empty.proc p).map Proc.cwd) (some i) = 0 :=
      occurrences_eq_zero_iff.2 fun p => by simp [empty]
    rw [holders, files, procs]
  have started : userinit disk = empty.setProc initproc (some ⟨0, fun _ => none⟩) := by
    unfold userinit
    rw [namei_root]
    rfl
  have unused : Balance (fun _ => 0) unlocked disk.boot :=
    ⟨fun _ => rfl, fun _ => rfl, fun _ held => absurd held Bool.false_ne_true, fun _ _ pos => absurd pos (Nat.lt_irrefl 0)⟩
  have balance := unused.setInode 0 ⟨ROOTINO, 1, false, false, .blank .free⟩ (n := 1) (b := false) rfl rfl (by simp)
    fun _ _ _ pos => absurd pos (Nat.lt_irrefl 0)
  have moved := eq_of_moved (holders_setProc empty initproc (some ⟨0, fun _ => none⟩))
  rw [nobody] at moved
  rw [started]
  unfold Referenced
  rw [moved]
  simpa [empty, bump, setProc] using balance

end System

/-- **References balance.** In every state between calls an entry of the inode cache is referenced once for each open
file and each current directory that points to it, no entry is locked, and no inode is in two entries. -/
theorem inode_references {disk : Disk} {tr : List (System × Fin NPROC × Call)} {s : System}
    (run : Run System.step (System.userinit disk) tr s) :
    (∀ i, (s.fs.icache i).ref = s.holders i) ∧ (∀ i, (s.fs.icache i).busy = false) ∧
      ∀ i j, 0 < (s.fs.icache i).ref → 0 < (s.fs.icache j).ref → (s.fs.icache i).inum = (s.fs.icache j).inum → i = j := by
  have ref : s.Referenced :=
    run.invariant_all System.Referenced (System.userinit_ok disk) fun _ _ _ ref taken => System.step_ok ref taken
  refine ⟨ref.counts, ref.busy, fun i j posI posJ => ?_⟩
  rw [ref.counts] at posI posJ
  exact ref.unique i j posI posJ

/-- A disk with an empty root directory, which does not even have the entry for itself. -/
def emptyRoot : Disk where
  bitmap := fun b => b < firstData
  dinode := fun n => if n = ROOTINO then { Dinode.blank .dir with nlink := 1 } else .blank .free
  block := fun _ _ => 0

/-- A directory is made and entered, and a file is opened in it and closed by a child. -/
def makeAndShare : List (Fin NPROC × Call) :=
  [(0, .mkdir [0x61]), (0, .chdir [0x61]), (0, .open [0x62] O_CREATE), (0, .fork 1), (0, .close 0), (1, .chdir [slash]),
    (1, .close 0), (1, .exit)]

/-- Afterwards every `ref` counts the holders. -/
theorem inode_references_shared : ∃ tr s, Run System.step (System.userinit emptyRoot) tr s ∧
    tr.map Prod.snd = makeAndShare ∧ ∀ i, (s.fs.icache i).ref = s.holders i := by
  have ends : (Lib.exec System.step (System.userinit emptyRoot) makeAndShare).isSome = true := by decide +kernel
  obtain ⟨s, done⟩ := Option.isSome_iff_exists.1 ends
  exact ⟨_, s, run_of_exec done, record_events done, (inode_references (run_of_exec done)).1⟩

end Xv6.Fs
