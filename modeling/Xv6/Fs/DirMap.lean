import Xv6.Fs.Contents
import Xv6.Fs.ContentSpec
import Xv6.Lib.Slots

/-!
# A directory is a finite map

`dirlookup`, `dirlink` and the zeroing of an entry by `unlink` work on the entries of a
directory as on a table with empty slots, whose keys are names cut off at `DIRSIZ`
bytes. What other entries the inode cache has does not matter to them.
-/

namespace Xv6.Fs

open Xv6.Lib Xv6.Lib.Eff

/-! ## Names -/

/-- The string at the beginning of `name`, at most `n` bytes of it. -/
def cut (n : Nat) (name : List Byte) : List Byte := (name.takeWhile (· ≠ 0)).take n

/-- What counts of a name in a directory. -/
def key (name : List Byte) : List Byte := cut DIRSIZ name

section
variable {n : Nat} {name p q : List Byte}

theorem cut_succ : cut (n + 1) name = if name.headD 0 = 0 then [] else name.headD 0 :: cut n name.tail := by
  cases name with
  | nil => rfl
  | cons c name =>
    rw [List.headD_cons, List.tail_cons, cut]
    by_cases zero : c = 0
    · rw [if_pos zero, List.takeWhile_cons_of_neg (by simpa using zero), List.take_nil]
    · rw [if_neg zero, List.takeWhile_cons_of_pos (by simpa using zero), List.take_succ_cons]
      rfl

theorem strncmp_eq_zero_iff : strncmp n p q = 0 ↔ cut n p = cut n q := by
  induction n generalizing p q with
  | zero => simp [strncmp, cut]
  | succ n ih =>
    rw [strncmp, cut_succ, cut_succ]
    by_cases same : p.headD 0 = q.headD 0
    · rw [same]
      by_cases zero : q.headD 0 = 0
      · rw [if_neg fun both => both.1 zero, if_pos zero, if_pos zero]
        exact iff_of_true (Int.sub_self _) rfl
      · rw [if_pos ⟨zero, rfl⟩, if_neg zero, if_neg zero, ih]
        simp
    · have differ : ((p.headD 0).toNat : Int) - (q.headD 0).toNat ≠ 0 := fun eq => same (BitVec.eq_of_toNat_eq (by omega))
      rw [if_neg fun both => same both.2]
      refine iff_of_false differ fun eq => same ?_
      split at eq <;> split at eq <;> simp_all

theorem namecmp_eq_zero_iff : namecmp p q = 0 ↔ key p = key q := strncmp_eq_zero_iff

theorem strncpy_length (m : Nat) (u : List Byte) : (strncpy m u).length = m := by
  induction m generalizing u with
  | zero => rfl
  | succ m ih =>
    rw [strncpy]
    split
    · exact List.length_replicate
    · rw [List.length_cons, ih]

theorem takeWhile_strncpy : (strncpy n name).takeWhile (· ≠ 0) = cut n name := by
  induction n generalizing name with
  | zero => simp [strncpy, cut]
  | succ n ih =>
    rw [strncpy, cut_succ]
    split
    · simp [List.replicate_succ]
    · rename_i nonzero
      rw [List.takeWhile_cons_of_pos (by simpa using nonzero), ih]

/-- The name in a new entry is the one that was asked for. -/
theorem key_strncpy : key (strncpy DIRSIZ name) = key name := by
  rw [key, cut, takeWhile_strncpy, key, cut, List.take_take, Nat.min_self]

end

/-! ## The entries of a directory -/

/-- What an entry is to a lookup. -/
def slotOf (de : List Byte) : Option (List Byte × Nat) :=
  if direntInum de = 0 then none else some (key (direntName de), direntInum de)

/-- The bytes of entry `j`. -/
def chunk (c : List Byte) (j : Nat) : List Byte := (c.drop (j * DIRENT)).take DIRENT

/-- The entries of a directory with the contents `c`. -/
def entries (c : List Byte) : List (Option (List Byte × Nat)) := (List.range (c.length / DIRENT)).map fun j => slotOf (chunk c j)

section
variable {c de name : List Byte} {j k inum : Nat}

theorem getElem?_entries : (entries c)[j]? = if j < c.length / DIRENT then some (slotOf (chunk c j)) else none := by
  unfold entries
  rw [List.getElem?_map]
  split
  · rename_i lt
    rw [List.getElem?_range lt]
    rfl
  · rename_i ge
    rw [List.getElem?_eq_none (by simpa using ge)]
    rfl

theorem chunk_length (whole : DIRENT ∣ c.length) (lt : j < c.length / DIRENT) : (chunk c j).length = DIRENT := by
  have inside : (j + 1) * DIRENT ≤ c.length := by
    obtain ⟨m, size⟩ := whole
    rw [size, Nat.mul_comm DIRENT] at lt ⊢
    rw [Nat.mul_div_cancel _ (by decide)] at lt
    exact Nat.mul_le_mul_right _ lt
  unfold chunk
  rw [List.length_take, List.length_drop]
  unfold DIRENT DIRSIZ at *
  omega

theorem chunk_splice (le : j * DIRENT ≤ c.length) (len : de.length = DIRENT) :
    chunk (splice c (j * DIRENT) de) k = if k = j then de else chunk c k := by
  have first : (c.take (j * DIRENT)).length = j * DIRENT := by rw [List.length_take, Nat.min_eq_left le]
  have step : ∀ a b : Nat, a < b → a * DIRENT + DIRENT ≤ b * DIRENT := fun a b lt => by
    rw [← Nat.succ_mul]
    exact Nat.mul_le_mul_right _ lt
  unfold chunk splice
  rw [len, List.append_assoc]
  rcases Nat.lt_trichotomy k j with before | rfl | after
  · have inside := step k j before
    rw [if_neg (by omega), List.drop_append_of_le_length (by omega), List.take_append_of_le_length (by rw [List.length_drop]; omega),
      List.drop_take, List.take_take, Nat.min_eq_left (by omega)]
  · rw [if_pos rfl, List.drop_left' first, ← len, List.take_left]
  · have inside := step j k after
    rw [if_neg (by omega), List.drop_append, List.drop_of_length_le (by omega), List.nil_append, first, List.drop_append,
      List.drop_of_length_le (by omega), List.nil_append, List.drop_drop]
    congr 2
    omega

/-- Writing an entry. -/
theorem entries_splice (whole : DIRENT ∣ c.length) (le : j ≤ c.length / DIRENT) (len : de.length = DIRENT) :
    entries (splice c (j * DIRENT) de) = Slots.put (entries c) j (slotOf de) := by
  have within : j * DIRENT ≤ c.length := (Nat.le_div_iff_mul_le (by decide)).1 le
  have length : (splice c (j * DIRENT) de).length = max c.length (j * DIRENT + DIRENT) := by rw [length_splice within, len]
  have count : (entries c).length = c.length / DIRENT := by simp [entries]
  refine List.ext_getElem? fun k => ?_
  rw [Slots.getElem?_put (by omega), getElem?_entries, getElem?_entries, chunk_splice within len, length]
  have bound : k < max c.length (j * DIRENT + DIRENT) / DIRENT ↔ k < c.length / DIRENT ∨ k = j := by
    unfold DIRENT DIRSIZ at *
    omega
  by_cases here : k = j
  · rw [if_pos (bound.2 (.inr here)), if_pos here, if_pos here]
  · rw [if_neg here, if_neg here]
    simp only [bound, here, or_false]

theorem slotOf_dirent (small : inum < 65536) (nonzero : inum ≠ 0) :
    slotOf (dirent inum (strncpy DIRSIZ name)) = some (key name, inum) := by
  have stored : direntInum (dirent inum (strncpy DIRSIZ name)) = inum := by
    simp only [direntInum, dirent, List.getD_cons_zero, List.getD_cons_succ, BitVec.toNat_ofNat]
    omega
  rw [slotOf, stored, if_neg nonzero, direntName, dirent]
  exact congrArg (fun name => some (name, inum)) key_strncpy

theorem slotOf_zero : slotOf (List.replicate DIRENT 0) = none := rfl

end

/-! ## One entry of the inode cache -/

/-- The state as reading and writing entry `i` sees it: with the other entries of the cache empty, and `ref` not counted. -/
def State.solo (i : Fin NINODE) (s : State) : State :=
  { s with icache := fun j => if j = i then { s.icache i with ref := 1 } else ⟨0, 0, false, false, .blank .free⟩ }

section
variable {s s' s'' : State} {i j : Fin NINODE} {k n off inum : Nat} {name de : List Byte} {t : List Effect}

theorem solo_self : (s.solo i).icache i = { s.icache i with ref := 1 } := if_pos rfl

theorem solo_setInode {ip : Inode} : (s.solo i).setInode i { ip with ref := 1 } = (s.setInode i ip).solo i := by
  have cache : Function.update (s.solo i).icache i { ip with ref := 1 } = ((s.setInode i ip).solo i).icache := by
    funext j
    rcases eq_or_ne j i with rfl | ne
    · rw [Function.update_self, solo_self, setInode_self]
    · rw [Function.update_of_ne ne]
      simp [State.solo, ne]
  simp only [State.setInode, cache]
  rfl

theorem solo_setInode_of_ne {ip : Inode} (ne : j ≠ i) : (s.setInode j ip).solo i = s.solo i := by
  simp only [State.solo, setInode_of_ne ne.symm]
  rfl

/-- A change of a reference count. -/
theorem solo_setRef (j : Fin NINODE) (m : Nat) : (s.setInode j { s.icache j with ref := m }).solo i = s.solo i := by
  rcases eq_or_ne j i with rfl | ne
  · rw [← solo_setInode]
    exact congrArg (fun cache => ({ s.solo j with icache := cache } : State))
      ((congrArg (Function.update (s.solo j).icache j) solo_self.symm).trans (Function.update_eq_self ..))
  · exact solo_setInode_of_ne ne

theorem blind_solo (i : Fin NINODE) : Blind i (State.solo i) where
  bitmap _ := rfl
  block _ := rfl
  inTrans _ := rfl
  lh _ := rfl
  inum _ := by rw [solo_self]
  addrs _ := by rw [solo_self]
  size _ := by rw [solo_self]
  dev _ := by rw [solo_self]
  major _ := by rw [solo_self]
  setBit _ _ _ := rfl
  setBlock _ _ _ := rfl
  absorb _ _ := rfl
  setCopy s f h := by
    rw [← solo_setInode, solo_self]
  store s := by
    rw [solo_self]
    rfl

theorem solo_copy : (s.solo i).copy i = s.copy i := by rw [State.copy, solo_self, State.copy]

theorem solo_contents : (s.solo i).contents i = s.contents i := by rw [State.contents, solo_copy]; rfl

/-- The inode in entry `i` is a directory without holes, in a state in which reading and writing it works. -/
structure IsDir (i : Fin NINODE) (s : State) : Prop where
  hole : HoleFree (s.solo i)
  trans : s.inTrans = true
  loaded : s.Loaded i
  type : (s.copy i).type = .dir
  whole : DIRENT ∣ (s.contents i).length

theorem IsDir.congr (dir : IsDir i s) (same : s'.solo i = s.solo i) (live : s'.Live i) :
    IsDir i s' ∧ s'.contents i = s.contents i := by
  have valid : (s'.icache i).valid = (s.icache i).valid := by
    have entry := congrArg (fun s : State => (s.icache i).valid) same
    simpa only [solo_self] using entry
  have copy : s'.copy i = s.copy i := by rw [← solo_copy, same, solo_copy]
  have contents : s'.contents i = s.contents i := by rw [← solo_contents, same, solo_contents]
  refine ⟨⟨by rw [same]; exact dir.hole, ?_, ⟨live, by rw [valid]; exact dir.loaded.2⟩, by rw [copy]; exact dir.type, ?_⟩, contents⟩
  · exact (congrArg State.inTrans same).trans dir.trans
  · rw [contents]
    exact dir.whole

theorem IsDir.solo_loaded (dir : IsDir i s) : (s.solo i).Loaded i := by
  unfold State.Loaded State.Live
  rw [solo_self]
  exact ⟨Nat.one_pos, dir.loaded.2⟩

theorem IsDir.fits (dir : IsDir i s) : (s.copy i).size ≤ MAXFILE * BSIZE := by
  have fits := dir.hole.fits dir.solo_loaded
  rwa [solo_copy] at fits

theorem IsDir.full (dir : IsDir i s) : s.Full i := by
  have full := dir.hole.full dir.solo_loaded
  unfold State.Full State.slot at full ⊢
  rwa [solo_copy] at full

theorem IsDir.ready (dir : IsDir i s) : Ready s := ⟨dir.trans, Wf.marked (s := (s.solo i).plain) dir.hole⟩

/-! ## References that are taken and dropped -/

/-- The inode cache has no unused entry. -/
def Crowded (s : State) : Prop := ∀ j, (s.icache j).ref ≠ 0

/-- A reference to entry `j` has been taken. -/
structure Lent (i j : Fin NINODE) (n : Nat) (s s' : State) : Prop where
  inum : s'.inum j = n
  solo : s'.solo i = s.solo i
  live : s'.Live i
  self : j = i → 2 ≤ (s'.icache i).ref
  kept : (s'.icache j).ref = 1 → (s'.icache j).valid = false

theorem setRef_live (live : s.Live i) {m : Nat} (pos : j = i → 0 < m) : (s.setInode j { s.icache j with ref := m }).Live i := by
  unfold State.Live
  rcases eq_or_ne j i with rfl | ne
  · rw [setInode_self]
    exact pos rfl
  · rw [setInode_of_ne ne.symm]
    exact live

theorem iget_lends (live : s.Live i) (n : Nat) :
    yields (iget n) (fun j s' t => t = [] ∧ Lent i j n s s') (fun _ _ _ => Crowded s) s := by
  unfold iget
  refine yields_state_bind ?_
  split
  · rename_i j found
    have used : 0 < (s.icache j).ref ∧ (s.icache j).inum = n := by simpa using List.find?_some found
    refine yields_update_bind (yields_pure ⟨rfl, ?_, solo_setRef j _, setRef_live live fun _ => Nat.succ_pos _, ?_, ?_⟩)
    · rw [State.inum, setInode_self]
      exact used.2
    · rintro rfl
      rw [setInode_self]
      exact Nat.succ_le_succ used.1
    · rw [setInode_self]
      intro one
      exact absurd one (by show (s.icache j).ref + 1 ≠ 1; omega)
  · split
    · rename_i full
      refine yields_fail fun j zero => ?_
      have used := List.find?_eq_none.1 full j (List.mem_finRange j)
      simp [zero] at used
    · rename_i j found
      have unused : (s.icache j).ref = 0 := by simpa using List.find?_some found
      have ne : j ≠ i := by
        rintro rfl
        exact absurd live (by rw [State.Live, unused]; exact Nat.lt_irrefl 0)
      refine yields_update_bind (yields_pure ⟨rfl, ?_, solo_setInode_of_ne ne, ?_, fun same => absurd same ne, fun _ => ?_⟩)
      · rw [State.inum, setInode_self]
      · rw [State.Live, setInode_of_ne ne.symm]
        exact live
      · rw [setInode_self]

/-- The reference is dropped again: nothing is freed. -/
theorem Lent.put (lent : Lent i j n s s') :
    succeeds (iput j) (fun _ s'' t => t = [] ∧ s''.solo i = s.solo i ∧ s''.Live i) s' := by
  unfold iput
  refine succeeds_state_bind ?_
  have kept : ¬ ((s'.icache j).ref = 1 ∧ (s'.icache j).valid = true ∧ (s'.icache j).copy.nlink = 0) := by
    rintro ⟨one, valid, -⟩
    rw [lent.kept one] at valid
    cases valid
  rw [if_neg kept]
  refine succeeds_then (succeeds_pure (Q := fun _ s1 t => s1 = s' ∧ t = []) ⟨rfl, rfl⟩) ?_
  rintro _ _ _ ⟨rfl, rfl⟩
  refine succeeds_of_run rfl ⟨rfl, (solo_setRef j _).trans lent.solo, setRef_live lent.live fun same => ?_⟩
  have two := lent.self same
  rw [same]
  omega

/-! ## Scanning -/

theorem offsets_zero {size : Nat} (whole : DIRENT ∣ size) : offsets 0 size = (List.range (size / DIRENT)).map (· * DIRENT) := by
  have count : (size - 0 + (DIRENT - 1)) / DIRENT = size / DIRENT := by
    unfold DIRENT DIRSIZ at *
    omega
  simp only [offsets, count, Nat.zero_add]

theorem endOffset_eq {size : Nat} (whole : DIRENT ∣ size) : endOffset size = size / DIRENT * DIRENT := by
  unfold endOffset
  unfold DIRENT DIRSIZ at *
  omega

theorem IsDir.notDev (dir : IsDir i s) : (s.copy i).type ≠ .dev := by
  rw [dir.type]
  decide

theorem readDirent_bytes (dir : IsDir i s) {e : Panic} (lt : k < (s.contents i).length / DIRENT) :
    succeeds (readDirent e i (k * DIRENT)) (fun de s' t => de = chunk (s.contents i) k ∧ s' = s ∧ t = []) s := by
  have fits := dir.fits
  have inside : k * DIRENT ≤ (s.contents i).length := (Nat.le_div_iff_mul_le (by decide)).1 (Nat.le_of_lt lt)
  have accepted : ¬ (k * DIRENT > (s.contents i).length ∨ 2 ^ 32 ≤ k * DIRENT + DIRENT) := by
    rw [length_contents] at inside ⊢
    unfold MAXFILE NDIRECT NINDIRECT BSIZE at fits
    unfold DIRENT DIRSIZ at *
    omega
  refine succeeds_then (readi_bytes dir.fits dir.full dir.notDev) ?_
  rintro _ s _ ⟨rfl, rfl, rfl⟩
  rw [if_neg accepted]
  show succeeds (if (chunk (s.contents i) k).length = DIRENT then pure (chunk (s.contents i) k) else fail e) _ s
  rw [if_pos (chunk_length dir.whole lt)]
  exact succeeds_pure ⟨rfl, rfl, rfl⟩

/-- The test that `dirlookup` makes on an entry. -/
theorem match_iff : direntInum de ≠ 0 ∧ namecmp name (direntName de) = 0 ↔ slotOf de = some (key name, direntInum de) := by
  rw [namecmp_eq_zero_iff, slotOf]
  by_cases zero : direntInum de = 0
  · simp [zero]
  · rw [if_neg zero]
    simp [zero, eq_comm]

theorem slotOf_inum {p : List Byte × Nat} (slot : slotOf de = some p) : p.2 = direntInum de := by
  unfold slotOf at slot
  split at slot
  · cases slot
  · cases slot
    rfl

theorem dirlookupLoop_map (dir : IsDir i s) (ks : List Nat) (inside : ∀ k ∈ ks, k < (s.contents i).length / DIRENT) :
    yields (dirlookupLoop i name (ks.map (· * DIRENT))) (fun r s' t => t = [] ∧ match r with
      | none => s' = s ∧ ∀ k ∈ ks, ∀ n, slotOf (chunk (s.contents i) k) ≠ some (key name, n)
      | some (ip, off) => ∃ k ∈ ks, ∃ n, off = k * DIRENT ∧ slotOf (chunk (s.contents i) k) = some (key name, n) ∧ Lent i ip n s s')
      (fun _ _ _ => Crowded s) s := by
  induction ks with
  | nil => exact yields_pure ⟨rfl, rfl, by simp⟩
  | cons k ks ih =>
    refine yields_then (readDirent_bytes dir (inside k List.mem_cons_self)).outcome (fun _ _ _ stops => stops.elim) ?_
    rintro de s1 _ ⟨rfl, same, rfl⟩
    rw [same]
    refine yields_ite (fun found => ?_) fun differs => ?_
    · refine yields_then (iget_lends dir.loaded.1 _) (fun _ _ _ crowded => crowded) ?_
      rintro ip s' _ ⟨rfl, lent⟩
      exact yields_pure ⟨rfl, k, List.mem_cons_self, _, rfl, match_iff.1 found, lent⟩
    · refine yields_mono (ih fun k member => inside k (List.mem_cons_of_mem _ member)) ?_ fun _ _ _ crowded => crowded
      rintro (_ | ⟨ip, off⟩) s' t ⟨rfl, post⟩
      · refine ⟨rfl, post.1, fun k' member n slot => ?_⟩
        rcases List.mem_cons.1 member with rfl | later
        · obtain rfl : n = direntInum (chunk (s.contents i) k') := slotOf_inum slot
          exact differs (match_iff.2 slot)
        · exact post.2 k' later n slot
      · obtain ⟨k', member, post⟩ := post
        exact ⟨rfl, k', List.mem_cons_of_mem _ member, post⟩

/-- No entry of the directory has the name. -/
def Absent (i : Fin NINODE) (name : List Byte) (s : State) : Prop :=
  ∀ (k : Nat) n, (entries (s.contents i))[k]? ≠ some (some (key name, n))

/-- What `dirlookup` finds in the directory. -/
def Found (i : Fin NINODE) (name : List Byte) (s : State) : Option (Fin NINODE × Nat) → State → Prop
  | none, s' => s' = s ∧ Absent i name s
  | some (ip, off), s' => ∃ (k : Nat) (n : Nat), off = k * DIRENT ∧ (entries (s.contents i))[k]? = some (some (key name, n)) ∧
      Lent i ip n s s'

theorem dirlookup_map (dir : IsDir i s) (name : List Byte) :
    yields (dirlookup i name) (fun r s' t => t = [] ∧ Found i name s r s') (fun _ _ _ => Crowded s) s := by
  refine yields_state_bind ?_
  have whole := dir.whole
  rw [length_contents] at whole
  rw [if_pos (show (s.icache i).copy.type = .dir from dir.type), show (s.icache i).copy.size = (s.copy i).size from rfl,
    offsets_zero whole, ← length_contents]
  refine yields_mono (dirlookupLoop_map dir _ fun k member => List.mem_range.1 member) ?_ fun _ _ _ crowded => crowded
  rintro (_ | ⟨ip, off⟩) s' t ⟨rfl, post⟩
  · refine ⟨rfl, post.1, fun k n slot => ?_⟩
    rw [getElem?_entries] at slot
    split at slot
    · rename_i lt
      exact post.2 k (List.mem_range.2 lt) n (Option.some.inj slot)
    · cases slot
  · obtain ⟨k, member, n, place, slot, lent⟩ := post
    refine ⟨rfl, k, n, place, ?_, lent⟩
    rw [getElem?_entries, if_pos (List.mem_range.1 member), slot]

theorem emptyDirent_map (dir : IsDir i s) (fallback : Nat) (ks : List Nat) (inside : ∀ k ∈ ks, k < (s.contents i).length / DIRENT) :
    succeeds (emptyDirent i fallback (ks.map (· * DIRENT))) (fun off s' t => s' = s ∧ t = [] ∧
      ((∃ k ∈ ks, off = k * DIRENT ∧ slotOf (chunk (s.contents i) k) = none) ∨
        off = fallback ∧ ∀ k ∈ ks, slotOf (chunk (s.contents i) k) ≠ none)) s := by
  induction ks with
  | nil => exact succeeds_pure ⟨rfl, rfl, .inr ⟨rfl, by simp⟩⟩
  | cons k ks ih =>
    refine succeeds_then (readDirent_bytes dir (inside k List.mem_cons_self)) ?_
    rintro de s1 _ ⟨rfl, same, rfl⟩
    rw [same]
    refine succeeds_ite (fun zero => succeeds_pure ⟨rfl, rfl, .inl ⟨k, List.mem_cons_self, rfl, if_pos zero⟩⟩) fun used => ?_
    refine succeeds_mono (ih fun k member => inside k (List.mem_cons_of_mem _ member)) ?_
    rintro off s' t ⟨rfl, rfl, ⟨k', member, post⟩ | ⟨rfl, none⟩⟩
    · exact ⟨rfl, rfl, .inl ⟨k', List.mem_cons_of_mem _ member, post⟩⟩
    · refine ⟨rfl, rfl, .inr ⟨rfl, fun k' member => ?_⟩⟩
      rcases List.mem_cons.1 member with rfl | later
      · rw [slotOf, if_neg used]
        simp
      · exact none k' later

/-! ## Writing an entry -/

theorem entry_touched {bn : Nat} (member : bn ∈ touched (k * DIRENT) DIRENT) : bn = k * DIRENT / BSIZE := by
  obtain ⟨o, low, high, rfl⟩ := mem_touched.1 member
  unfold DIRENT DIRSIZ BSIZE at *
  omega

theorem needs_entry : s.needs i (k * DIRENT) DIRENT ≤ 2 := by
  have one : (touched (k * DIRENT) DIRENT).filter (fun bn => s.slot i (fileSlot bn) = 0) ⊆ {k * DIRENT / BSIZE} := by
    intro bn member
    exact Finset.mem_singleton.2 (entry_touched (Finset.mem_filter.1 member).1)
  have few := Finset.card_le_card one
  rw [Finset.card_singleton] at few
  unfold State.needs
  split <;> omega

/-- An entry that is there already takes no block. -/
theorem needs_old (full : s.Full i) (lt : k * DIRENT < (s.copy i).size) : s.needs i (k * DIRENT) DIRENT = 0 := by
  have here : s.slot i (fileSlot (k * DIRENT / BSIZE)) ≠ 0 := full _ (mul_BSIZE_lt lt)
  have none : (touched (k * DIRENT) DIRENT).filter (fun bn => s.slot i (fileSlot bn) = 0) = ∅ := by
    refine Finset.filter_false_of_mem fun bn member => ?_
    rw [entry_touched member]
    exact here
  unfold State.needs
  rw [none, Finset.card_empty, if_neg]
  rintro ⟨⟨bn, member, above⟩, missing⟩
  rw [entry_touched member] at above
  exact indirect_ne_zero above here missing

theorem card_entry_touched : (touched (k * DIRENT) DIRENT).card ≤ 1 :=
  Finset.card_le_one.2 fun _ member _ member' => (entry_touched member).trans (entry_touched member').symm

/-- An entry is written as a whole. -/
theorem writei_entry (dir : IsDir i s) (le : k ≤ (s.contents i).length / DIRENT) (len : de.length = DIRENT)
    (enough : s.needs i (k * DIRENT) DIRENT ≤ s.room) :
    yields (writei i (k * DIRENT) de) (fun r s' _ => if MAXFILE * BSIZE < k * DIRENT + DIRENT then r = none
      else r = some DIRENT ∧ IsDir i s' ∧ entries (s'.contents i) = Slots.put (entries (s.contents i)) k (slotOf de))
      (fun _ _ _ => ¬ s.LogRoom 1) s := by
  have within : k * DIRENT ≤ (s.contents i).length := (Nat.le_div_iff_mul_le (by decide)).1 le
  have fits := dir.fits
  rw [← length_contents] at fits
  have enough' : (s.solo i).needs i (k * DIRENT) de.length ≤ (s.solo i).room := by
    have same : (s.solo i).needs i (k * DIRENT) DIRENT = s.needs i (k * DIRENT) DIRENT := by
      unfold State.needs State.slot
      rw [solo_copy]
      rfl
    rw [len, same]
    exact enough
  have notDev : ((s.solo i).copy i).type ≠ .dev := by
    rw [solo_copy]
    exact dir.notDev
  have ready : Ready (s.solo i) := ⟨dir.trans, dir.ready.marked⟩
  have bytes := writei_bytes dir.hole ready dir.solo_loaded notDev enough'
  refine yields_mono (((blind_solo i).respects_writei.yields bytes).and_returns (writei_local.kept s)) ?_ ?_
  rotate_left
  · rintro _ _ _ ⟨-, full⟩
    rw [len] at full
    refine Nat.not_lt.2 (full.trans (Nat.add_le_add_right (Nat.add_le_add_left ?_ _) 3))
    exact card_entry_touched
  rintro r s' t ⟨outcome, only⟩
  rw [solo_contents, len] at outcome
  by_cases long : MAXFILE * BSIZE < k * DIRENT + DIRENT
  · rw [if_pos long]
    rw [if_pos (.inr (.inr long))] at outcome
    exact outcome.1
  · have accepted : ¬ Rejected (s.contents i).length (k * DIRENT) DIRENT := by
      rintro (h | h | h)
      · omega
      · unfold MAXFILE NDIRECT NINDIRECT BSIZE at long
        omega
      · exact long h
    rw [if_neg accepted] at outcome
    rw [if_neg long]
    obtain ⟨rfl, writes⟩ := outcome
    have contents : s'.contents i = splice (s.contents i) (k * DIRENT) de := by
      rw [← solo_contents, writes.contents, solo_contents]
    refine ⟨rfl, ⟨writes.hole, writes.ready.trans, (only.loaded i).2 dir.loaded, ?_, ?_⟩, ?_⟩
    · rw [State.copy, only.own]
      exact dir.type
    · have whole := dir.whole
      rw [contents, length_splice within, len]
      unfold DIRENT DIRSIZ at *
      omega
    · rw [contents, entries_splice dir.whole le len]

/-! ## `dirlink`, and what `unlink` does to a directory -/

/-- A new entry has to go to the end of the directory. -/
def NoSlot (i : Fin NINODE) (s : State) : Prop := ∀ k : Nat, (entries (s.contents i))[k]? ≠ some none

/-- The directory cannot grow any more. -/
def AtMaximum (i : Fin NINODE) (s : State) : Prop := NoSlot i s ∧ MAXFILE * BSIZE < (s.contents i).length + DIRENT

/-- If the name has to be entered at the end, then there are the blocks for it. -/
def RoomFor (i : Fin NINODE) (name : List Byte) (s : State) : Prop :=
  Absent i name s → NoSlot i s → s.needs i (s.contents i).length DIRENT ≤ s.room

/-- What `dirlink` does: nothing if the name is there. -/
def LinkedAs (i : Fin NINODE) (name : List Byte) (inum : Nat) (s s' : State) : Bool → Prop
  | false => s'.contents i = s.contents i ∧ ∃ (k : Nat) (n : Nat), (entries (s.contents i))[k]? = some (some (key name, n))
  | true => Absent i name s ∧ ∃ k : Nat, (k = (entries (s.contents i)).length ∨ (entries (s.contents i))[k]? = some none) ∧
      entries (s'.contents i) = Slots.put (entries (s.contents i)) k (some (key name, inum))

theorem length_entries {c : List Byte} : (entries c).length = c.length / DIRENT := by simp [entries]

/-- **`dirlink` on the map.** -/
theorem dirlink_map (dir : IsDir i s) (name : List Byte) (pos : 0 < inum) (small : inum < 65536) (room : RoomFor i name s) :
    yields (dirlink i name inum) (fun r s' _ => IsDir i s' ∧ LinkedAs i name inum s s' r)
      (fun _ _ _ => Crowded s ∨ Absent i name s ∧ (AtMaximum i s ∨ ¬ s.LogRoom 1)) s := by
  have whole := dir.whole
  rw [length_contents] at whole
  refine yields_then (dirlookup_map dir name) (fun _ _ _ crowded => .inl crowded) ?_
  rintro (_ | ⟨ip, off⟩) s1 _ ⟨rfl, found⟩
  · obtain ⟨rfl, absent⟩ := found
    refine yields_state_bind ?_
    rw [show (s1.icache i).copy.size = (s1.copy i).size from rfl, offsets_zero whole, endOffset_eq whole, ← length_contents]
    have empty := emptyDirent_map dir ((s1.contents i).length / DIRENT * DIRENT) (List.range ((s1.contents i).length / DIRENT))
      fun k member => List.mem_range.1 member
    refine yields_then empty.outcome (fun _ _ _ stops => stops.elim) ?_
    rintro off s _ ⟨rfl, rfl, place⟩
    obtain ⟨k, rfl, le, free, enough, last⟩ : ∃ k, off = k * DIRENT ∧ k ≤ (s.contents i).length / DIRENT ∧
        (k = (entries (s.contents i)).length ∨ (entries (s.contents i))[k]? = some none) ∧
        s.needs i (k * DIRENT) DIRENT ≤ s.room ∧ (MAXFILE * BSIZE < k * DIRENT + DIRENT → AtMaximum i s) := by
      have fits := dir.fits
      rw [← length_contents] at fits
      rcases place with ⟨k, member, rfl, slot⟩ | ⟨rfl, used⟩
      · have lt := List.mem_range.1 member
        have below := (Nat.le_div_iff_mul_le (by decide)).1 (show k + 1 ≤ (s.contents i).length / DIRENT from lt)
        rw [Nat.succ_mul] at below
        refine ⟨k, rfl, Nat.le_of_lt lt, .inr (by rw [getElem?_entries, if_pos lt, slot]), ?_, fun long => absurd long (by omega)⟩
        rw [length_contents] at below
        rw [needs_old dir.full (by unfold DIRENT DIRSIZ at *; omega)]
        exact Nat.zero_le _
      · have noSlot : NoSlot i s := fun k slot => by
          rw [getElem?_entries] at slot
          split at slot
          · rename_i lt
            exact used k (List.mem_range.2 lt) (Option.some.inj slot)
          · cases slot
        refine ⟨_, rfl, Nat.le_refl _, .inl length_entries.symm, ?_, fun long => ⟨noSlot, ?_⟩⟩
        · rw [Nat.div_mul_cancel dir.whole]
          exact room absent noSlot
        · rwa [Nat.div_mul_cancel dir.whole] at long
    have len : (dirent inum (strncpy DIRSIZ name)).length = DIRENT := by
      rw [dirent, List.length_cons, List.length_cons, strncpy_length]
      rfl
    refine yields_then (writei_entry dir le len enough) (fun _ _ _ full => .inr ⟨absent, .inr full⟩) ?_
    intro r s' t outcome
    by_cases long : MAXFILE * BSIZE < k * DIRENT + DIRENT
    · rw [if_pos long] at outcome
      rw [outcome, if_neg (by simp)]
      exact yields_fail (.inr ⟨absent, .inl (last long)⟩)
    · rw [if_neg long] at outcome
      obtain ⟨rfl, dir', put⟩ := outcome
      rw [if_pos rfl]
      rw [slotOf_dirent small (Nat.ne_of_gt pos)] at put
      exact yields_pure ⟨dir', absent, k, free, put⟩
  · obtain ⟨k, n, rfl, slot, lent⟩ := found
    refine yields_then lent.put.outcome (fun _ _ _ stops => stops.elim) ?_
    rintro _ s' _ ⟨rfl, same, live⟩
    obtain ⟨dir', contents⟩ := dir.congr same live
    exact yields_pure ⟨dir', contents, k, n, slot⟩

/-- What `unlink` does to the directory: it zeroes the entry that `dirlookup` found. -/
def zeroEntry (i : Fin NINODE) (name : List Byte) : M Unit := do
  match ← dirlookup i name with
  | none => pure ()
  | some (_, off) => do
    let done ← writei i off (List.replicate DIRENT 0)
    if done = some DIRENT then pure () else fail .unlinkWritei

/-- The entry of the name is gone. -/
def Zeroed (i : Fin NINODE) (name : List Byte) (s s' : State) : Prop :=
  (s'.contents i = s.contents i ∧ Absent i name s) ∨
    ∃ (k : Nat) (n : Nat), (entries (s.contents i))[k]? = some (some (key name, n)) ∧
      entries (s'.contents i) = Slots.put (entries (s.contents i)) k none

theorem zeroEntry_map (dir : IsDir i s) (name : List Byte) :
    returns (zeroEntry i name) (fun _ s' => IsDir i s' ∧ Zeroed i name s s') s := by
  refine ⟨yields_then (dirlookup_map dir name) (fun _ _ _ _ => trivial) ?_⟩
  rintro (_ | ⟨ip, off⟩) s1 _ ⟨rfl, found⟩
  · obtain ⟨rfl, absent⟩ := found
    exact yields_pure ⟨dir, .inl ⟨rfl, absent⟩⟩
  · obtain ⟨k, n, rfl, slot, lent⟩ := found
    obtain ⟨dir1, contents⟩ := dir.congr lent.solo lent.live
    have lt : k < (s1.contents i).length / DIRENT := by
      rw [contents]
      rw [getElem?_entries] at slot
      by_contra ge
      rw [if_neg ge] at slot
      cases slot
    have below : k * DIRENT + DIRENT ≤ (s1.contents i).length := by
      have := (Nat.le_div_iff_mul_le (by decide)).1 (show k + 1 ≤ (s1.contents i).length / DIRENT from lt)
      rwa [Nat.succ_mul] at this
    have fits := dir1.fits
    rw [length_contents] at below
    have old : s1.needs i (k * DIRENT) DIRENT ≤ s1.room := by
      rw [needs_old dir1.full (by unfold DIRENT DIRSIZ at *; omega)]
      exact Nat.zero_le _
    refine yields_then (writei_entry dir1 (Nat.le_of_lt lt) (List.length_replicate ..) old) (fun _ _ _ _ => trivial) ?_
    intro r s' t outcome
    rw [if_neg (by omega)] at outcome
    obtain ⟨rfl, dir', put⟩ := outcome
    rw [if_pos rfl]
    rw [contents, slotOf_zero] at put
    exact yields_pure ⟨dir', .inr ⟨k, n, slot, put⟩⟩

/-! ## Any sequence of operations -/

end

inductive DirOp
  | link (name : List Byte) (inum : Nat)
  | zero (name : List Byte)

/-- The operations on a finite map. -/
def DirOp.onMap (f : List Byte → Option Nat) : DirOp → List Byte → Option Nat
  | link name inum => if f (key name) = none then Function.update f (key name) (some inum) else f
  | zero name => Function.update f (key name) none

/-- For each name the number last linked under it and not removed since. -/
def mapOf (ops : List DirOp) : List Byte → Option Nat := ops.foldl DirOp.onMap fun _ => none

/-- The operations lead from `s0` to `s`. In between the rest of the kernel may do anything that leaves the contents of the
directory alone. -/
inductive DirRun (i : Fin NINODE) (s0 : State) : List DirOp → State → Prop
  | start : DirRun i s0 [] s0
  | link {ops : List DirOp} {s s' : State} {name : List Byte} {inum : Nat} {r : Bool} {t : List Effect} (run : DirRun i s0 ops s)
      (pos : 0 < inum) (small : inum < 65536) (room : RoomFor i name s) (call : dirlink i name inum s = (.ok r, s', t)) :
    DirRun i s0 (ops ++ [.link name inum]) s'
  | zero {ops : List DirOp} {s s' : State} {name : List Byte} {t : List Effect} (run : DirRun i s0 ops s)
      (call : zeroEntry i name s = (.ok (), s', t)) : DirRun i s0 (ops ++ [.zero name]) s'
  | other {ops : List DirOp} {s s' : State} (run : DirRun i s0 ops s) (dir : IsDir i s')
      (same : s'.contents i = s.contents i) : DirRun i s0 ops s'

section
variable {s s' s0 : State} {i : Fin NINODE} {inum : Nat} {name : List Byte} {ops : List DirOp} {f : List Byte → Option Nat}

theorem absent_iff (table : Slots.Table (entries (s.contents i)) f) : Absent i name s ↔ f (key name) = none := by
  rw [Option.eq_none_iff_forall_ne_some]
  refine ⟨fun absent n value => ?_, fun none k n slot => none n ((table.value _ _).2 ⟨k, slot⟩)⟩
  obtain ⟨k, slot⟩ := (table.value _ _).1 value
  exact absent k n slot

theorem LinkedAs.table {r : Bool} (linked : LinkedAs i name inum s s' r) (table : Slots.Table (entries (s.contents i)) f) :
    Slots.Table (entries (s'.contents i)) ((DirOp.link name inum).onMap f) := by
  rw [DirOp.onMap]
  cases r with
  | false =>
    obtain ⟨same, k, n, slot⟩ := linked
    rw [if_neg (by rw [(table.value _ n).2 ⟨k, slot⟩]; simp), same]
    exact table
  | true =>
    obtain ⟨absent, k, place, put⟩ := linked
    rw [if_pos ((absent_iff table).1 absent), put]
    exact table.enter ((absent_iff table).1 absent) place

theorem Zeroed.table (zeroed : Zeroed i name s s') (table : Slots.Table (entries (s.contents i)) f) :
    Slots.Table (entries (s'.contents i)) ((DirOp.zero name).onMap f) := by
  rw [DirOp.onMap]
  rcases zeroed with ⟨same, absent⟩ | ⟨k, n, slot, put⟩
  · rw [same, ← (absent_iff table).1 absent, Function.update_eq_self]
    exact table
  · rw [put]
    exact table.remove slot

theorem DirRun.inv (dir : IsDir i s0) (empty : s0.contents i = []) (run : DirRun i s0 ops s) :
    IsDir i s ∧ Slots.Table (entries (s.contents i)) (mapOf ops) := by
  induction run with
  | start =>
    refine ⟨dir, ?_⟩
    rw [empty]
    exact .nil
  | link run pos small room call ih =>
    obtain ⟨dir', table⟩ := ih
    have post := dirlink_map dir' _ pos small room
    unfold yields at post
    rw [call] at post
    refine ⟨post.1, ?_⟩
    rw [mapOf, List.foldl_append]
    exact post.2.table table
  | @zero ops s s' name t run call ih =>
    obtain ⟨dir', table⟩ := ih
    have post := (zeroEntry_map dir' name).apply call
    refine ⟨post.1, ?_⟩
    rw [mapOf, List.foldl_append]
    exact post.2.table table
  | other run dir' same ih =>
    rw [same]
    exact ⟨dir', ih.2⟩

/-- A directory is a finite map from names, cut off at `DIRSIZ` bytes, to inode numbers. Its used entries have different
names; `dirlookup` returns the inode that was linked last under the name and has not been removed; and `dirlink` returns -1,
without changing the directory, exactly if there is one. Both return unless the inode cache is full or, for a new entry,
the directory has its maximal size or the log is full. -/
theorem directory_is_finite_map (dir : IsDir i s0) (empty : s0.contents i = []) (run : DirRun i s0 ops s) :
    (∀ j k, j < (s.contents i).length / DIRENT → k < (s.contents i).length / DIRENT →
      direntInum (chunk (s.contents i) j) ≠ 0 → direntInum (chunk (s.contents i) k) ≠ 0 →
      namecmp (direntName (chunk (s.contents i) j)) (direntName (chunk (s.contents i) k)) = 0 → j = k) ∧
    (∀ name, (¬ Crowded s → ∃ r s' t, dirlookup i name s = (.ok r, s', t)) ∧
      ∀ r s' t, dirlookup i name s = (.ok r, s', t) → r.map (fun found => s'.inum found.1) = mapOf ops (key name)) ∧
    ∀ name inum, 0 < inum → inum < 65536 → RoomFor i name s →
      (¬ Crowded s → (mapOf ops (key name) = none → ¬ AtMaximum i s ∧ s.LogRoom 1) → ∃ r s' t, dirlink i name inum s = (.ok r, s', t)) ∧
      ∀ r s' t, dirlink i name inum s = (.ok r, s', t) →
        (r = false ↔ mapOf ops (key name) ≠ none) ∧ (r = false → s'.contents i = s.contents i) := by
  obtain ⟨dir', table⟩ := run.inv dir empty
  refine ⟨?_, fun name => ⟨fun spare => ?_, fun r s' t call => ?_⟩, fun name inum pos small room => ⟨fun spare grows => ?_, fun r s' t call => ?_⟩⟩
  · intro j k ltJ ltK usedJ usedK same
    have slot : ∀ a < (s.contents i).length / DIRENT, direntInum (chunk (s.contents i) a) ≠ 0 →
        (entries (s.contents i))[a]? = some (some (key (direntName (chunk (s.contents i) a)), direntInum (chunk (s.contents i) a))) := by
      intro a lt used
      rw [getElem?_entries, if_pos lt, slotOf, if_neg used]
    have slotJ := slot j ltJ usedJ
    rw [namecmp_eq_zero_iff.1 same] at slotJ
    exact table.once j k _ _ _ slotJ (slot k ltK usedK)
  · have total : succeeds (dirlookup i name) (fun r s' t => t = [] ∧ Found i name s r s') s :=
      ⟨yields_mono (dirlookup_map dir' name) (fun _ _ _ post => post) fun _ _ _ crowded => spare crowded⟩
    obtain ⟨r, s', t, call, -⟩ := total.exists
    exact ⟨r, s', t, call⟩
  · have post := dirlookup_map dir' name
    unfold yields at post
    rw [call] at post
    rcases r with _ | ⟨ip, off⟩
    · exact ((absent_iff table).1 post.2.2).symm
    · obtain ⟨-, k, n, -, slot, lent⟩ := post
      rw [(table.value _ n).2 ⟨k, slot⟩, Option.map_some, lent.inum]
  · have total : succeeds (dirlink i name inum) (fun r s' _ => IsDir i s' ∧ LinkedAs i name inum s s' r) s := by
      refine ⟨yields_mono (dirlink_map dir' name pos small room) (fun _ _ _ post => post) ?_⟩
      rintro _ _ _ (crowded | ⟨absent, most | full⟩)
      · exact spare crowded
      · exact (grows ((absent_iff table).1 absent)).1 most
      · exact full (grows ((absent_iff table).1 absent)).2
    obtain ⟨r, s', t, call, -⟩ := total.exists
    exact ⟨r, s', t, call⟩
  · have post := dirlink_map dir' name pos small room
    unfold yields at post
    rw [call] at post
    cases r with
    | false =>
      obtain ⟨-, same, k, n, slot⟩ := post
      refine ⟨iff_of_true rfl ?_, fun _ => same⟩
      rw [(table.value _ n).2 ⟨k, slot⟩]
      simp
    | true =>
      refine ⟨iff_of_false (by simp) ?_, by simp⟩
      rw [not_not]
      exact (absent_iff table).1 post.2.1

end

theorem oneInode_isDir : IsDir 0 (oneInode .dir) := by
  have same : (oneInode .dir).solo 0 = oneInode .dir := by
    have cache : ((oneInode .dir).solo 0).icache = (oneInode .dir).icache := by
      funext j
      by_cases zero : j = 0
      · simp [State.solo, oneInode, zero]
      · simp [State.solo, oneInode, zero]
    exact congrArg (fun cache => ({ oneInode .dir with icache := cache } : State)) cache
  refine ⟨?_, rfl, oneInode_loaded.2 rfl, rfl, Nat.dvd_zero _⟩
  rw [same]
  exact oneInode_holeFree (by decide)

/-- In an empty directory inode 7 was linked as `a` and removed again. -/
def unlinked : State := (zeroEntry 0 [0x61] (dirlink 0 [0x61] 7 (oneInode .dir)).2.1).2.1

/-- Inode 8 as `b` gets the entry that `a` had. -/
theorem directory_is_finite_map_reuse : ∃ s, DirRun 0 (oneInode .dir) [.link [0x61] 7, .zero [0x61], .link [0x62] 8] s ∧
    (s.contents 0).length = DIRENT ∧
    (∀ r s' t, dirlookup 0 [0x61] s = (.ok r, s', t) → r.map (fun found => s'.inum found.1) = none) ∧
    ∀ r s' t, dirlookup 0 [0x62] s = (.ok r, s', t) → r.map (fun found => s'.inum found.1) = some 8 := by
  have linked : (dirlink 0 [0x61] 7 (oneInode .dir)).1 = .ok true := by decide +kernel
  have zeroed : (zeroEntry 0 [0x61] (dirlink 0 [0x61] 7 (oneInode .dir)).2.1).1 = .ok () := by decide +kernel
  have again : (dirlink 0 [0x62] 8 unlinked).1 = .ok true := by decide +kernel
  have room : RoomFor 0 [0x61] (oneInode .dir) := fun _ _ => by
    rw [oneInode_room]
    exact (needs_entry (k := 0)).trans (by decide)
  have slot : (entries (unlinked.contents 0))[0]? = some none := by decide +kernel
  have ran {α : Type} {m : M α} {s : State} {a : α} (ok : (m s).1 = .ok a) : m s = (.ok a, (m s).2.1, (m s).2.2) := Prod.ext ok rfl
  have removed : DirRun 0 (oneInode .dir) [.link [0x61] 7, .zero [0x61]] unlinked :=
    .zero (.link .start (by decide) (by decide) room (ran linked)) (ran zeroed)
  have run := removed.link (by decide) (by decide) (fun _ full => absurd slot (full 0)) (ran again)
  have map := (directory_is_finite_map oneInode_isDir rfl run).2.1
  refine ⟨_, run, by decide +kernel, fun r s' t call => ?_, fun r s' t call => ?_⟩
  · rw [(map [0x61]).2 r s' t call]
    decide +kernel
  · rw [(map [0x62]).2 r s' t call]
    decide +kernel

end Xv6.Fs
