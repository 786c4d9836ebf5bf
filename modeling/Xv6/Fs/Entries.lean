import Xv6.Fs.Updates

/-!
# Updates of the inode cache

Counts of references, blank inodes, and the entries that writing to an inode leaves alone.
-/

namespace Xv6.Fs

open Xv6.Lib Xv6.Lib.Eff

section
variable {refs : Fin NINODE → Nat} {s s' s'' : State} {i : Fin NINODE} {b bn k n off : Nat} {src : List Byte}

/-- One more reference to entry `i`. -/
def bump (refs : Fin NINODE → Nat) (i : Fin NINODE) : Fin NINODE → Nat := Function.update refs i (refs i + 1)

/-- One reference to entry `i` less. -/
def drop (refs : Fin NINODE → Nat) (i : Fin NINODE) : Fin NINODE → Nat := Function.update refs i (refs i - 1)

@[simp] theorem drop_bump : drop (bump refs i) i = refs := by
  simp [drop, bump]

theorem drop_bump_bump {j : Fin NINODE} : drop (bump (bump refs i) j) i = bump refs j := by
  funext k
  unfold drop bump
  rcases eq_or_ne k i with rfl | ne
  · rw [Function.update_self]
    rcases eq_or_ne k j with rfl | ne'
    · simp
    · simp [ne']
  · rw [Function.update_of_ne ne]
    rcases eq_or_ne k j with rfl | ne'
    · simp [ne]
    · simp [ne, ne']

theorem bump_pos {j : Fin NINODE} (h : 0 < refs j) : 0 < bump refs i j := by
  unfold bump
  rcases eq_or_ne j i with rfl | ne
  · rw [Function.update_self]
    omega
  · rwa [Function.update_of_ne ne]

/-- The representation of a blank inode refers to nothing. -/
theorem slot_blank {d : Dinode} (addrs : ∀ k ≤ NDIRECT, d.addrs k = 0) (block : Nat → Nat → Byte) (k : Nat) :
    d.slot block k = 0 := by
  rcases Nat.lt_or_ge NDIRECT k with above | le
  · rw [slot_above above, if_pos (addrs _ (Nat.le_refl _))]
  · rw [slot_direct le, addrs k le]

theorem Sound.empty {d : Dinode} (addrs : ∀ k ≤ NDIRECT, d.addrs k = 0) (size : d.size = 0)
    (block : Nat → Nat → Byte) : Sound block d := by
  refine ⟨?_, ?_, ?_, ?_⟩
  · omega
  · intro bn inside
    omega
  · intro _
    rw [size]
    exact Nat.dvd_zero _
  · intro _ k _ _ used
    exact absurd (slot_blank addrs block k) used

/-! ## What writing the content of an inode leaves alone -/

/-- Entry `i` keeps its inode, up to addresses and size, and no other entry or inode changes. -/
structure Local (i : Fin NINODE) (s s' : State) : Prop where
  others : ∀ j, j ≠ i → s'.icache j = s.icache j
  own : s'.icache i = { s.icache i with copy := { s.copy i with addrs := (s'.copy i).addrs, size := (s'.copy i).size } }
  dinode : ∀ n, n ≠ s.inum i → s'.dinode n = s.dinode n

theorem Local.refl : Local i s s := ⟨fun _ _ => rfl, rfl, fun _ _ => rfl⟩

theorem Local.inum (only : Local i s s') : s'.inum i = s.inum i := by rw [State.inum, only.own, State.inum]

theorem Local.trans (first : Local i s s') (second : Local i s' s'') : Local i s s'' := by
  refine ⟨fun j ne => ?_, ?_, fun n ne => ?_⟩
  · rw [second.others j ne, first.others j ne]
  · rw [second.own, State.copy, first.own]
  · rw [second.dinode n (by rwa [first.inum]), first.dinode n ne]

instance : IsPreorder State (Local i) where
  refl _ := .refl
  trans _ _ _ := .trans

/-- A change to the entry that is about addresses and size. -/
theorem Local.setInode {d : Dinode} (same : d = { s.copy i with addrs := d.addrs, size := d.size }) :
    Local i s (s.setInode i { s.icache i with copy := d }) := by
  have new : (s.setInode i { s.icache i with copy := d }).copy i = d := by rw [State.copy, setInode_self]
  refine ⟨fun j ne => setInode_of_ne ne, ?_, fun _ _ => rfl⟩
  rw [setInode_self, new]
  exact congrArg (fun c => ({ s.icache i with copy := c } : Inode)) same

theorem Local.loaded (only : Local i s s') (j : Fin NINODE) : s'.Loaded j ↔ s.Loaded j := by
  unfold State.Loaded State.Live
  rcases eq_or_ne j i with rfl | ne
  · rw [only.own]
  · rw [only.others j ne]

theorem logWrite_local : Keeps (Local i) (logWrite b) :=
  keeps_bind keeps_state fun _ => keeps_ite keeps_fail
    (keeps_ite (keeps_update fun _ => ⟨fun _ _ => rfl, rfl, fun _ _ => rfl⟩) keeps_fail)

theorem balloc_local : Keeps (Local i) balloc := by
  refine keeps_bind keeps_state fun s => ?_
  split
  · exact keeps_fail
  · refine keeps_bind (keeps_update fun _ => ⟨fun _ _ => rfl, rfl, fun _ _ => rfl⟩) fun _ => keeps_bind logWrite_local fun _ => ?_
    refine keeps_bind (keeps_bind (keeps_update fun _ => ⟨fun _ _ => rfl, rfl, fun _ _ => rfl⟩) fun _ => logWrite_local) fun _ => ?_
    exact keeps_bind keeps_emit fun _ => keeps_pure

theorem setCopy_local {f : Dinode → Dinode} (same : ∀ d, f d = { d with addrs := (f d).addrs, size := (f d).size }) :
    Keeps (Local i) (setCopy i f) :=
  keeps_update fun _ => Local.setInode (same _)

theorem iupdate_local : Keeps (Local i) (iupdate i) := by
  refine ⟨fun s => returns_state_bind (returns_update_bind ?_)⟩
  refine returns_mono ((logWrite_local (i := i)).kept _) fun _ s' after => ?_
  have first : Local i s (s.setDinode (s.icache i).inum (s.icache i).copy) :=
    ⟨fun _ _ => rfl, rfl, fun n ne => Function.update_of_ne ne _ _⟩
  exact first.trans after

theorem loadAddr_local : Keeps (Local i) (loadAddr i k) := by
  refine keeps_bind keeps_state fun s => keeps_ite (keeps_bind balloc_local fun b => ?_) keeps_pure
  exact keeps_bind (setCopy_local fun _ => rfl) fun _ => keeps_pure

theorem loadEntry_local {a j : Nat} : Keeps (Local i) (loadEntry a j) := by
  refine keeps_bind keeps_state fun s => keeps_ite (keeps_bind balloc_local fun b => ?_) keeps_pure
  refine keeps_bind (keeps_update fun _ => ⟨fun _ _ => rfl, rfl, fun _ _ => rfl⟩) fun _ => ?_
  exact keeps_bind logWrite_local fun _ => keeps_pure

theorem bmap_local : Keeps (Local i) (bmap i bn) :=
  keeps_ite loadAddr_local (keeps_ite (keeps_bind loadAddr_local fun _ => loadEntry_local) keeps_fail)

theorem writeiLoop_local (rounds : Nat) : Keeps (Local i) (writeiLoop rounds i off src) := by
  induction rounds generalizing off src with
  | zero => exact keeps_pure
  | succ rounds ih =>
    refine keeps_ite keeps_pure (keeps_bind bmap_local fun b => ?_)
    refine keeps_bind (keeps_update fun _ => ⟨fun _ _ => rfl, rfl, fun _ _ => rfl⟩) fun _ => ?_
    exact keeps_bind logWrite_local fun _ => ih

theorem writei_local : Keeps (Local i) (writei i off src) := by
  refine keeps_bind keeps_state fun s => keeps_ite (keeps_ite keeps_pure keeps_pure) (keeps_ite keeps_pure (keeps_ite keeps_pure ?_))
  refine keeps_bind (writeiLoop_local _) fun _ => keeps_bind (keeps_ite ?_ keeps_pure) fun _ => keeps_pure
  exact keeps_bind (setCopy_local fun _ => rfl) fun _ => iupdate_local

end

end Xv6.Fs
