import Xv6.Fs.Entries
import Xv6.Fs.System
import Xv6.Lib.Count

/-!
# References to the inode cache

How the counts and the locks of the inode cache move, whatever is on the disk: what
returns has given back every reference but the ones it returns, and has unlocked what
it has locked.
-/

namespace Xv6.Fs

open Xv6.Lib Xv6.Lib.Eff
open Function (update_eq_self update_of_ne update_self)

variable {refs : Fin NINODE → Nat} {locked : Fin NINODE → Bool} {s s' : State} {i j : Fin NINODE}

/-! ## Code that moves no references -/

/-- Counts, locks and inode numbers of the cache stay as they are. -/
def SameRefs (s s' : State) : Prop :=
  ∀ i, (s'.icache i).ref = (s.icache i).ref ∧ (s'.icache i).busy = (s.icache i).busy ∧ s'.inum i = s.inum i

instance : IsPreorder State SameRefs where
  refl := fun _ _ => ⟨rfl, rfl, rfl⟩
  trans := fun _ _ _ first second i =>
    ⟨(second i).1.trans (first i).1, (second i).2.1.trans (first i).2.1, (second i).2.2.trans (first i).2.2⟩

theorem SameRefs.of_icache (same : s'.icache = s.icache) : SameRefs s s' := by
  intro i
  rw [State.inum, State.inum, same]
  exact ⟨rfl, rfl, rfl⟩

theorem logWrite_refs (b : Nat) : Keeps SameRefs (logWrite b) :=
  keeps_bind keeps_state fun _ => keeps_ite keeps_fail (keeps_ite (keeps_update fun _ => .of_icache rfl) keeps_fail)

theorem setCopy_refs (i : Fin NINODE) (f : Dinode → Dinode) : Keeps SameRefs (setCopy i f) := by
  refine keeps_update fun s j => ?_
  rcases eq_or_ne j i with rfl | ne
  · simp [State.inum]
  · simp [State.inum, setInode_of_ne ne]

theorem Local.sameRefs (only : Local i s s') : SameRefs s s' := by
  intro j
  unfold State.inum
  rcases eq_or_ne j i with rfl | ne
  · rw [only.own]
    exact ⟨rfl, rfl, rfl⟩
  · rw [only.others j ne]
    exact ⟨rfl, rfl, rfl⟩

theorem sameRefs_of_local {α : Type} {m : M α} (kept : Keeps (Local i) m) : Keeps SameRefs m :=
  ⟨fun s => returns_mono (kept.kept s) fun _ _ => Local.sameRefs⟩

theorem bfree_refs (b : Nat) : Keeps SameRefs (bfree b) :=
  keeps_bind keeps_state fun _ =>
    keeps_ite (keeps_bind (keeps_update fun _ => .of_icache rfl) fun _ => logWrite_refs _) keeps_fail

theorem iupdate_refs (i : Fin NINODE) : Keeps SameRefs (iupdate i) := sameRefs_of_local iupdate_local

theorem bmap_refs (i : Fin NINODE) (bn : Nat) : Keeps SameRefs (bmap i bn) := sameRefs_of_local bmap_local

theorem itrunc_refs (i : Fin NINODE) : Keeps SameRefs (itrunc i) := by
  refine keeps_bind (keeps_forEach (fun k => ?_) _) fun _ => keeps_bind keeps_state fun s => keeps_bind ?_ fun _ => ?_
  · exact keeps_bind keeps_state fun _ =>
      keeps_ite keeps_pure (keeps_bind (bfree_refs _) fun _ => setCopy_refs i _)
  · refine keeps_ite keeps_pure (keeps_bind (keeps_forEach (fun j => ?_) _) fun _ => ?_)
    · exact keeps_bind keeps_state fun _ => keeps_ite keeps_pure (bfree_refs _)
    · exact keeps_bind (bfree_refs _) fun _ => setCopy_refs i _
  · exact keeps_bind (setCopy_refs i _) fun _ => iupdate_refs i

theorem readiLoop_refs (rounds : Nat) (i : Fin NINODE) (off n : Nat) : Keeps SameRefs (readiLoop rounds i off n) := by
  induction rounds generalizing off n with
  | zero => exact keeps_pure
  | succ rounds ih =>
    refine keeps_ite keeps_pure (keeps_bind (bmap_refs i _) fun b => keeps_bind keeps_state fun s => ?_)
    exact keeps_bind (ih _ _) fun _ => keeps_pure

theorem readi_refs (i : Fin NINODE) (off n : Nat) : Keeps SameRefs (readi i off n) :=
  keeps_bind keeps_state fun _ => keeps_ite keeps_pure
    (keeps_ite keeps_pure (keeps_bind (readiLoop_refs _ i off _) fun _ => keeps_pure))

theorem writei_refs (i : Fin NINODE) (off : Nat) (src : List Byte) : Keeps SameRefs (writei i off src) :=
  sameRefs_of_local writei_local

theorem readDirent_refs (e : Panic) (i : Fin NINODE) (off : Nat) : Keeps SameRefs (readDirent e i off) := by
  refine keeps_bind (readi_refs i off DIRENT) fun got => ?_
  cases got with
  | none => exact keeps_fail
  | some de => exact keeps_ite keeps_pure keeps_fail

theorem emptyDirent_refs (i : Fin NINODE) (fallback : Nat) (L : List Nat) : Keeps SameRefs (emptyDirent i fallback L) := by
  induction L with
  | nil => exact keeps_pure
  | cons off rest ih => exact keeps_bind (readDirent_refs _ i off) fun _ => keeps_ite keeps_pure ih

theorem isdiremptyLoop_refs (i : Fin NINODE) (L : List Nat) : Keeps SameRefs (isdiremptyLoop i L) := by
  induction L with
  | nil => exact keeps_pure
  | cons off rest ih => exact keeps_bind (readDirent_refs _ i off) fun _ => keeps_ite keeps_pure ih

theorem isdirempty_refs (i : Fin NINODE) : Keeps SameRefs (isdirempty i) :=
  keeps_bind keeps_state fun _ => isdiremptyLoop_refs i _

/-! ## Moving references -/

/-- Entry `i` is referenced `refs i` times, the locked entries are those of `locked`, and no inode has two entries. -/
structure Balance (refs : Fin NINODE → Nat) (locked : Fin NINODE → Bool) (s : State) : Prop where
  counts : ∀ i, (s.icache i).ref = refs i
  busy : ∀ i, (s.icache i).busy = locked i
  held : ∀ i, locked i = true → 0 < refs i
  unique : ∀ i j, 0 < refs i → 0 < refs j → s.inum i = s.inum j → i = j

/-- Nothing is locked. -/
abbrev unlocked : Fin NINODE → Bool := fun _ => false

/-- Entry `i` is locked too. -/
abbrev lock (locked : Fin NINODE → Bool) (i : Fin NINODE) : Fin NINODE → Bool := Function.update locked i true

section
variable (balance : Balance refs locked s)
include balance

theorem Balance.same (same : SameRefs s s') : Balance refs locked s' where
  counts := fun i => (same i).1.trans (balance.counts i)
  busy := fun i => (same i).2.1.trans (balance.busy i)
  held := balance.held
  unique := fun i j posI posJ eq => balance.unique i j posI posJ (by rw [← (same i).2.2, ← (same j).2.2, eq])

/-- Code that moves no references, then the rest. -/
theorem Balance.skip {α β : Type} {m : M α} {f : α → M β} {R : β → State → Prop}
    (kept : Keeps SameRefs m) (rest : ∀ a s', Balance refs locked s' → returns (f a) R s') : returns (m >>= f) R s :=
  returns_bind (kept.kept s) fun a s' same => rest a s' (balance.same same)

/-- An entry changes; the others and their inode numbers stay. -/
theorem Balance.setInode (i : Fin NINODE) (ip : Inode) {n : Nat} {b : Bool}
    (ref : ip.ref = n) (busy : ip.busy = b) (held : b = true → 0 < n) (unique : 0 < n → ∀ j ≠ i, 0 < refs j → s.inum j ≠ ip.inum) :
    Balance (Function.update refs i n) (Function.update locked i b) (s.setInode i ip) := by
  have self : (s.setInode i ip).inum i = ip.inum := by rw [State.inum, setInode_self]
  have other {j : Fin NINODE} (ne : j ≠ i) : (s.setInode i ip).inum j = s.inum j := by
    rw [State.inum, setInode_of_ne ne, State.inum]
  refine ⟨fun j => ?_, fun j => ?_, fun j => ?_, fun j k => ?_⟩
  · rcases eq_or_ne j i with rfl | ne
    · simpa using ref
    · simpa [setInode_of_ne ne, update_of_ne ne] using balance.counts j
  · rcases eq_or_ne j i with rfl | ne
    · simpa using busy
    · simpa [setInode_of_ne ne, update_of_ne ne] using balance.busy j
  · rcases eq_or_ne j i with rfl | ne
    · simpa using held
    · simpa [update_of_ne ne] using balance.held j
  · rcases eq_or_ne j i with isI | neJ <;> rcases eq_or_ne k i with isI' | neK
    · exact fun _ _ _ => isI.trans isI'.symm
    · rw [isI, self, other neK, update_self, update_of_ne neK]
      exact fun pos posK eq => absurd eq.symm (unique pos k neK posK)
    · rw [isI', self, other neJ, update_self, update_of_ne neJ]
      exact fun posJ pos eq => absurd eq (unique pos j neJ posJ)
    · rw [other neJ, other neK, update_of_ne neJ, update_of_ne neK]
      exact balance.unique j k

/-- An entry in use keeps its inode number. -/
theorem Balance.apart (pos : 0 < refs i) (ne : j ≠ i) (posJ : 0 < refs j) :
    s.inum j ≠ s.inum i :=
  fun eq => ne (balance.unique j i posJ pos eq)

theorem Balance.unlocked_of_unused (zero : refs i = 0) : locked i = false := by
  cases held : locked i with
  | false => rfl
  | true =>
    have := balance.held i held
    omega

theorem iget_balance (n : Nat) :
    returns (iget n) (fun i s' => Balance (bump refs i) locked s') s := by
  refine returns_state_bind ?_
  split
  · rename_i i found
    have here := List.find?_some found
    simp only [decide_eq_true_eq, balance.counts] at here
    refine returns_update_bind (returns_pure ?_)
    have moved := balance.setInode i { s.icache i with ref := (s.icache i).ref + 1 } (n := refs i + 1) (b := locked i)
      (by simp [balance.counts]) (balance.busy i) (fun _ => Nat.succ_pos _) fun _ j ne pos =>
        balance.apart here.1 ne pos
    rwa [update_eq_self] at moved
  · rename_i missing
    split
    · exact returns_fail
    · rename_i i found
      have unused : refs i = 0 := by simpa [balance.counts] using List.find?_some found
      refine returns_update_bind (returns_pure ?_)
      have moved := balance.setInode i { s.icache i with inum := n, ref := 1, busy := false, valid := false }
        (n := refs i + 1) (b := locked i) (by simp [unused]) (balance.unlocked_of_unused unused).symm (fun _ => Nat.succ_pos _)
        fun _ j ne pos eq => ?_
      · rwa [update_eq_self] at moved
      · have := List.find?_eq_none.1 missing j (List.mem_finRange j)
        simp only [decide_eq_true_eq, balance.counts] at this
        exact this ⟨pos, eq⟩

theorem idup_balance (pos : 0 < refs i) :
    returns (idup i) (fun j s' => j = i ∧ Balance (bump refs i) locked s') s := by
  refine returns_update_bind (returns_pure ⟨rfl, ?_⟩)
  have moved := balance.setInode i { s.icache i with ref := (s.icache i).ref + 1 } (n := refs i + 1) (b := locked i)
    (by simp [balance.counts]) (balance.busy i) (fun _ => Nat.succ_pos _) fun _ j ne posJ =>
      balance.apart pos ne posJ
  rwa [update_eq_self] at moved

theorem ialloc_balance (type : FileType) :
    returns (ialloc type) (fun i s' => Balance (bump refs i) locked s') s := by
  refine returns_state_bind ?_
  split
  · exact returns_fail
  · rename_i n _
    refine returns_update_bind ?_
    have same : Balance refs locked (s.setDinode n (.blank type)) := balance.same (.of_icache rfl)
    exact same.skip (logWrite_refs _) fun _ s' balance' => iget_balance balance' n

/-- Entry `i` keeps its count and its inode number. -/
theorem Balance.setBusy (i : Fin NINODE) (ip : Inode) {b : Bool} (ref : ip.ref = (s.icache i).ref)
    (inum : ip.inum = s.inum i) (busy : ip.busy = b) (held : b = true → 0 < refs i) :
    Balance refs (Function.update locked i b) (s.setInode i ip) := by
  have moved := balance.setInode i ip (n := refs i) (ref.trans (balance.counts i)) busy held fun pos j ne posJ =>
    inum ▸ balance.apart pos ne posJ
  rwa [update_eq_self] at moved

theorem ilock_balance :
    returns (ilock i) (fun _ s' => locked i = false ∧ 0 < refs i ∧ Balance refs (lock locked i) s') s := by
  refine returns_state_bind (returns_ite (fun _ => returns_fail) fun referenced => ?_)
  refine returns_ite (fun _ => returns_fail) fun free => ?_
  have pos : 0 < refs i := by
    rw [← balance.counts i]
    omega
  have was : locked i = false := by
    rw [← balance.busy i]
    simpa using free
  refine returns_ite (fun _ => ?_) fun _ => ?_
  · exact returns_update ⟨was, pos, balance.setBusy i _ rfl rfl rfl fun _ => pos⟩
  · refine returns_update_bind (returns_ite (fun _ => returns_fail) fun _ => returns_pure ⟨was, pos, ?_⟩)
    exact balance.setBusy i _ rfl rfl rfl fun _ => pos

end

theorem update_lock (was : locked i = false) : Function.update (lock locked i) i false = locked := by
  rw [Function.update_idem, Function.update_eq_self_iff, was]

theorem iunlock_balance (balance : Balance refs (lock locked i) s) (was : locked i = false) :
    returns (iunlock i) (fun _ s' => Balance refs locked s') s := by
  refine returns_state_bind (returns_ite (fun _ => returns_update ?_) fun _ => returns_fail)
  have moved := balance.setBusy i { s.icache i with busy := false } rfl rfl rfl (by simp)
  rwa [update_lock was] at moved

/-- A locked entry is never put for the last time. -/
theorem iput_balance (balance : Balance refs locked s) (more : locked i = true → 2 ≤ refs i) :
    returns (iput i) (fun _ s' => Balance (drop refs i) locked s') s := by
  refine returns_state_bind (returns_bind (Q := fun _ s' => Balance refs locked s') ?_ fun _ s' balance' => ?_)
  · refine returns_ite (fun last => ?_) fun _ => returns_pure balance
    have one : refs i = 1 := (balance.counts i).symm.trans last.1
    have free : locked i = false := by
      rw [Bool.eq_false_iff]
      intro held
      have := more held
      omega
    refine returns_ite (fun _ => returns_fail) fun _ => returns_update_bind ?_
    -- the entry is locked while the inode is freed
    have busy : Balance refs (lock locked i) (s.setInode i { s.icache i with busy := true }) :=
      balance.setBusy i _ rfl rfl rfl fun _ => by omega
    refine busy.skip (itrunc_refs i) fun _ s1 busy1 => busy1.skip (setCopy_refs i _) fun _ s2 busy2 => ?_
    refine busy2.skip (iupdate_refs i) fun _ s3 busy3 => returns_update ?_
    have moved := busy3.setBusy i { s3.icache i with busy := false, valid := false } rfl rfl rfl (by simp)
    rwa [update_lock free] at moved
  · refine returns_update ?_
    have moved := balance'.setInode i { s'.icache i with ref := (s'.icache i).ref - 1 } (n := refs i - 1) (b := locked i)
      (by simp [balance'.counts]) (balance'.busy i) (fun held => by have := more held; omega) fun pos j ne posJ =>
        balance'.apart (by omega) ne posJ
    rwa [update_eq_self] at moved

theorem iunlockput_balance (balance : Balance refs (lock locked i) s) (was : locked i = false) :
    returns (iunlockput i) (fun _ s' => Balance (drop refs i) locked s') s :=
  returns_bind (iunlock_balance balance was) fun _ _ balance' => iput_balance balance' (by simp [was])

/-- A locked entry is unlocked and its reference given back at the end. -/
theorem returns_put {α : Type} {r : α} {Q : α → State → Prop} (balance : Balance (bump refs i) (lock locked i) s)
    (was : locked i = false) (post : ∀ s', Balance refs locked s' → Q r s') : returns (do iunlockput i; pure r) Q s :=
  returns_bind (iunlockput_balance balance was) fun _ s' balance' => returns_pure (post s' (by simpa using balance'))

/-! ## Directories and paths -/

/-- What a lookup returns is one more reference. -/
abbrev gained (refs : Fin NINODE → Nat) : Option (Fin NINODE) → Fin NINODE → Nat
  | none => refs
  | some i => bump refs i

theorem dirlookupLoop_balance (balance : Balance refs locked s) (name : List Byte) (L : List Nat) :
    returns (dirlookupLoop i name L) (fun r s' => Balance (gained refs (r.map Prod.fst)) locked s') s := by
  induction L generalizing s with
  | nil => exact returns_pure balance
  | cons off rest ih =>
    refine balance.skip (readDirent_refs _ i off) fun de s1 balance1 => returns_ite (fun _ => ?_) fun _ => ih balance1
    exact returns_bind (iget_balance balance1 _) fun j s2 balance2 => returns_pure balance2

theorem dirlookup_balance (balance : Balance refs locked s) (name : List Byte) :
    returns (dirlookup i name) (fun r s' => Balance (gained refs (r.map Prod.fst)) locked s') s :=
  returns_state_bind (returns_ite (fun _ => dirlookupLoop_balance balance name _) fun _ => returns_fail)

theorem dirlink_balance (balance : Balance refs locked s) (name : List Byte) (inum : Nat) :
    returns (dirlink i name inum) (fun _ s' => Balance refs locked s') s := by
  refine returns_bind (dirlookup_balance balance name) ?_
  rintro (_ | ⟨j, off⟩) s1 balance1
  · refine returns_state_bind (balance1.skip (emptyDirent_refs i _ _) fun off s2 balance2 => ?_)
    refine balance2.skip (writei_refs i off _) fun done s3 balance3 => ?_
    exact returns_ite (fun _ => returns_pure balance3) fun _ => returns_fail
  · have more : locked j = true → 2 ≤ bump refs j j := by
      intro held
      have := balance.held j held
      rw [bump, update_self]
      omega
    refine returns_bind (iput_balance balance1 more) fun _ s2 balance2 => returns_pure ?_
    simpa using balance2

theorem dropWhile_length_le (p : Byte → Bool) (l : List Byte) : (l.dropWhile p).length ≤ l.length :=
  (List.dropWhile_sublist p).length_le

/-- Every round takes something off the path. -/
theorem skipelem_shorter {path name path' name' : List Byte} (skipped : skipelem path name = some (path', name')) :
    path'.length < path.length := by
  unfold skipelem at skipped
  dsimp only at skipped
  split at skipped
  · cases skipped
  · rename_i more
    cases skipped
    obtain ⟨c, rest, is⟩ := List.exists_cons_of_ne_nil more
    have first : c ≠ slash := by
      have := List.head_dropWhile_not (fun c : Byte => decide (c = slash)) more
      simpa [is] using this
    have := dropWhile_length_le (fun c => decide (c = slash)) path
    have := dropWhile_length_le (fun c => decide (c = slash)) (rest.dropWhile fun c => decide (c ≠ slash))
    have := dropWhile_length_le (fun c => decide (c ≠ slash)) rest
    rw [is] at *
    simp only [List.dropWhile_cons, first, ne_eq, not_false_eq_true, decide_true, if_true, List.length_cons] at *
    omega

/-- The walk along a path gives back the reference it starts with. -/
theorem namexLoop_balance (rounds : Nat) (parent : Bool) (path name : List Byte) (enough : path.length < rounds)
    (balance : Balance (bump refs i) unlocked s) :
    returns (namexLoop rounds parent i path name)
      (fun r s' => Balance (gained refs (r.map Prod.fst)) unlocked s') s := by
  induction rounds generalizing s i path name with
  | zero => omega
  | succ rounds ih =>
    unfold namexLoop
    split
    · refine returns_ite (fun _ => ?_) fun _ => returns_pure balance
      refine returns_bind (iput_balance balance (by simp)) fun _ s1 balance1 => returns_pure ?_
      simpa using balance1
    · rename_i path' name' skipped
      refine returns_bind (ilock_balance balance) fun _ s1 locked1 => returns_state_bind ?_
      refine returns_ite (fun _ => ?_) fun _ => returns_ite (fun _ => ?_) fun _ => ?_
      · exact returns_put locked1.2.2 rfl fun _ done => done
      · exact returns_bind (iunlock_balance locked1.2.2 rfl) fun _ s2 balance2 => returns_pure balance2
      · refine returns_bind (dirlookup_balance locked1.2.2 name') fun next s2 balance2 => ?_
        refine returns_bind (iunlockput_balance balance2 rfl) fun _ s3 balance3 => ?_
        rcases next with _ | ⟨j, off⟩
        · refine returns_pure ?_
          simpa using balance3
        · have shorter := skipelem_shorter skipped
          refine ih path' name' (by omega) ?_
          simpa [drop_bump_bump] using balance3

theorem namex_balance {cwd : Fin NINODE} (path : List Byte) (parent : Bool) (balance : Balance refs unlocked s) (pos : 0 < refs cwd) :
    returns (namex cwd path parent) (fun r s' => Balance (gained refs (r.map Prod.fst)) unlocked s') s := by
  refine returns_bind (Q := fun i s' => Balance (bump refs i) unlocked s') (returns_ite (fun _ => ?_) fun _ => ?_) ?_
  · exact iget_balance balance ROOTINO
  · exact returns_mono (idup_balance balance pos) fun j s' post => post.1.symm ▸ post.2
  · intro i s' balance'
    exact namexLoop_balance _ parent path _ (Nat.lt_succ_self _) balance'

theorem namei_balance {cwd : Fin NINODE} (path : List Byte) (balance : Balance refs unlocked s) (pos : 0 < refs cwd) :
    returns (namei cwd path) (fun r s' => Balance (gained refs r) unlocked s') s :=
  returns_bind (namex_balance path false balance pos) fun _ _ balance' => returns_pure balance'

theorem nameiparent_balance {cwd : Fin NINODE} (path : List Byte) (balance : Balance refs unlocked s) (pos : 0 < refs cwd) :
    returns (nameiparent cwd path) (fun r s' => Balance (gained refs (r.map Prod.fst)) unlocked s') s :=
  namex_balance path true balance pos

end Xv6.Fs
