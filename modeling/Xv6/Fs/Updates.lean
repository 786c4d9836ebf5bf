import Xv6.Fs.Wellformed

/-!
# The updates that keep a state well-formed

One lemma for each kind of update that the code makes: taking a block, putting it in
a slot, writing data, writing an inode back, loading an entry of the cache, and
freeing an inode.
-/

namespace Xv6.Fs

open Function (update_of_ne update_self)

section
variable {s s' : State} {i : Fin NINODE} {ex a b j k n : Nat}

/-! ## Reading updated states -/

@[simp] theorem setInode_self {ip : Inode} : (s.setInode i ip).icache i = ip := update_self ..

theorem setInode_of_ne {ip : Inode} {j : Fin NINODE} (h : j ≠ i) : (s.setInode i ip).icache j = s.icache j :=
  update_of_ne h ..

/-- The entry `i` of `s` with another copy of its inode. -/
def State.setCopy (i : Fin NINODE) (d : Dinode) (s : State) : State := s.setInode i { s.icache i with copy := d }

theorem setCopy_self {d : Dinode} : (s.setCopy i d).copy i = d := by
  simp [State.copy, State.setCopy]

theorem setCopy_of_ne {d : Dinode} {j : Fin NINODE} (h : j ≠ i) : (s.setCopy i d).copy j = s.copy j := by
  simp [State.copy, State.setCopy, setInode_of_ne h]

/-- A new copy changes nothing else about the entries. -/
theorem setCopy_entry {d : Dinode} (j : Fin NINODE) : ((s.setCopy i d).icache j).ref = (s.icache j).ref ∧
    (s.setCopy i d).inum j = s.inum j ∧ ((s.setCopy i d).icache j).valid = (s.icache j).valid := by
  unfold State.setCopy State.inum
  rcases eq_or_ne j i with rfl | ne
  · simp
  · simp [setInode_of_ne ne]

theorem setCopy_live {d : Dinode} {j : Fin NINODE} : (s.setCopy i d).Live j ↔ s.Live j := by
  simp only [State.Live, (setCopy_entry j).1]

theorem setCopy_loaded {d : Dinode} {j : Fin NINODE} : (s.setCopy i d).Loaded j ↔ s.Loaded j := by
  simp only [State.Loaded, State.Live, (setCopy_entry j).1, (setCopy_entry j).2.2]

/-- The representations after entry `i` got a new copy. -/
theorem Copy.of_setCopy {d d' : Dinode} (rep : (s.setCopy i d).Copy n d') : d' = d ∧ n = s.inum i ∨ s.Copy n d' := by
  rcases rep with rfl | ⟨j, loadedJ, rfl, rfl⟩
  · exact Or.inr (Or.inl rfl)
  · rw [setCopy_loaded] at loadedJ
    rw [(setCopy_entry j).2.1]
    rcases eq_or_ne j i with rfl | ne
    · exact Or.inl ⟨setCopy_self, rfl⟩
    · rw [setCopy_of_ne ne]
      exact Or.inr loadedJ.rep

/-! ## Taking a block -/

/-- The bitmap block: there is one. -/
def bitmapBlock : Nat := BBLOCK 0

/-- Block `b` changed and logged. -/
def State.setData (b : Nat) (data : Nat → Byte) (s : State) : State := (s.setBlock b data).absorb b

/-- Nothing refers to `b`, which is marked, zeroed and in the data area. -/
structure Fresh (s : State) (b : Nat) : Prop where
  data : DataBlock b
  bit : s.bitmap b = true
  blank : s.block b = fun _ => 0
  unreferenced : ∀ n k, ¬s.Refers n k b

/-- The state in which `balloc` returns `b`. -/
def State.take (b : Nat) (s : State) : State :=
  (((s.setBit b true).absorb bitmapBlock).setBlock b fun _ => 0).absorb b

theorem take_block_of_ne (h : a ≠ b) : (s.take b).block a = s.block a := update_of_ne h ..

/-- A free block is no indirect block, so zeroing it leaves all slots as they are. -/
theorem Wf.take_slot (wf : Wf s) (free : s.bitmap b = false) (data : DataBlock b) {d : Dinode}
    (rep : s.Copy n d) : d.slot (s.take b).block k = d.slot s.block k := by
  apply slot_update_of_ne
  intro same
  have direct : d.slot s.block NDIRECT = b := by rw [slot_direct (Nat.le_refl _), same]
  exact wf.unreferenced free n NDIRECT ⟨data.ne_zero, NDIRECT_lt_NSLOT, d, rep, direct⟩

theorem Wf.take (wf : Wf s) (free : s.bitmap b = false) (data : DataBlock b) : Wf (s.take b) := by
  have bits : ∀ c, s.bitmap c = true → (s.take b).bitmap c = true := by
    intro c marked
    change Function.update s.bitmap b true c = true
    rcases eq_or_ne c b with rfl | ne
    · exact update_self ..
    · rw [update_of_ne ne, marked]
  -- no slot changes: any slot does for the one that might
  apply wf.grow 0 0 b
  · rfl
  · exact fun i => ⟨rfl, rfl, rfl, rfl, rfl⟩
  · exact bits
  · exact wf.unreferenced free
  · exact data
  · exact update_self ..
  · exact update_self ..
  · intro n k c ref _
    apply take_block_of_ne
    rintro rfl
    exact wf.unreferenced free n k ref
  · intro n d rep
    exact ⟨d, rep, rfl, rfl, fun k => Or.inl (wf.take_slot free data rep)⟩

theorem Wf.take_fresh (wf : Wf s) (free : s.bitmap b = false) (data : DataBlock b) : Fresh (s.take b) b := by
  refine ⟨data, update_self .., update_self .., ?_⟩
  rintro n k ⟨used, lt, d, rep, eq⟩
  rw [wf.take_slot free data rep] at eq
  exact wf.unreferenced free n k ⟨used, lt, d, rep, eq⟩

/-! ## Putting a block in a slot -/

/-- The inode in entry `i` with `addrs[k] = b`. -/
def State.setAddr (i : Fin NINODE) (k b : Nat) (s : State) : State :=
  s.setCopy i { s.copy i with addrs := Function.update (s.copy i).addrs k b }

theorem slot_setAddr (le : k ≤ NDIRECT) (empty : (s.copy i).addrs k = 0) (blank : s.block b = fun _ => 0) (j : Nat) :
    (s.setAddr i k b).slot i j = s.slot i j ∨ j = k ∧ s.slot i j = 0 ∧ (s.setAddr i k b).slot i j = b := by
  simp only [State.slot, State.setAddr, setCopy_self]
  change Dinode.slot _ s.block j = _ ∨ _ ∧ _ ∧ Dinode.slot _ s.block j = _
  rcases eq_or_ne j k with rfl | ne
  · right
    rw [slot_direct le, slot_direct le]
    exact ⟨rfl, empty, update_self ..⟩
  · left
    simp only [Dinode.slot]
    split
    · exact update_of_ne ne ..
    · rcases eq_or_ne NDIRECT k with rfl | ne'
      · rw [update_self, empty, if_pos rfl, blank, word_zero, ite_self]
      · rw [update_of_ne ne']

theorem Wf.setAddr (wf : Wf s) (loaded : s.Loaded i) (le : k ≤ NDIRECT) (empty : (s.copy i).addrs k = 0)
    (fresh : Fresh s b) : Wf (s.setAddr i k b) := by
  apply wf.grow (s.inum i) k b
  · rfl
  · intro j
    obtain ⟨sameRef, sameInum, sameValid⟩ := setCopy_entry (s := s) (i := i)
      (d := { s.copy i with addrs := Function.update (s.copy i).addrs k b }) j
    refine ⟨sameRef, sameInum, sameValid, ?_⟩
    rcases eq_or_ne j i with rfl | ne
    · rw [State.setAddr, setCopy_self]
      exact ⟨rfl, rfl⟩
    · rw [State.setAddr, setCopy_of_ne ne]
      exact ⟨rfl, rfl⟩
  · exact fun _ marked => marked
  · exact fresh.unreferenced
  · exact fresh.data
  · exact fresh.bit
  · exact fresh.blank
  · exact fun _ _ _ _ _ => rfl
  · intro n d' rep
    rcases Copy.of_setCopy rep with ⟨rfl, rfl⟩ | old
    · refine ⟨s.copy i, loaded.rep, rfl, rfl, fun j => ?_⟩
      have slots := slot_setAddr le empty fresh.blank j
      simp only [State.slot, State.setAddr, setCopy_self] at slots
      rcases slots with same | ⟨rfl, zero, new⟩
      · exact Or.inl same
      · exact Or.inr ⟨rfl, rfl, zero, new⟩
    · exact ⟨d', old, rfl, rfl, fun _ => Or.inl rfl⟩

theorem Wf.indirect (loaded : s.Loaded i) (used : (s.copy i).addrs NDIRECT ≠ 0) :
    s.Refers (s.inum i) NDIRECT ((s.copy i).addrs NDIRECT) := by
  have direct : (s.copy i).slot s.block NDIRECT = _ := slot_direct (Nat.le_refl NDIRECT)
  exact ⟨used, NDIRECT_lt_NSLOT, s.copy i, loaded.rep, direct⟩

/-- The indirect block `a` with entry `j` set to `b`. -/
def State.setEntry (a j b : Nat) (s : State) : State := s.setData a (setWord (s.block a) j b)

/-- What writing entry `j` of the indirect block `a` does to the slots of a representation. -/
theorem slot_setEntry {d : Dinode} (small : b < 2 ^ 32) (empty : word (s.block a) j = 0) (k : Nat) :
    d.slot (s.setEntry a j b).block k = d.slot s.block k ∨
      d.addrs NDIRECT = a ∧ k = NDIRECT + 1 + j ∧ d.slot s.block k = 0 ∧ d.slot (s.setEntry a j b).block k = b := by
  change Dinode.slot d (Function.update s.block a _) k = _ ∨ _ ∧ _ ∧ _ ∧ Dinode.slot d (Function.update s.block a _) k = _
  rcases ne_or_eq (d.addrs NDIRECT) a with other | rfl
  · exact Or.inl (slot_update_of_ne other)
  · rcases Nat.lt_or_ge NDIRECT k with above | le
    · rw [slot_above above, slot_above above, update_self]
      rcases eq_or_ne (d.addrs NDIRECT) 0 with none | some
      · rw [if_pos none, if_pos none]
        exact Or.inl rfl
      · rw [if_neg some, if_neg some]
        rcases eq_or_ne (k - (NDIRECT + 1)) j with rfl | ne
        · exact Or.inr ⟨rfl, by omega, empty, word_setWord small⟩
        · exact Or.inl (word_setWord_of_ne ne)
    · rw [slot_direct le, slot_direct le]
      exact Or.inl rfl

theorem DataBlock.small (data : DataBlock b) : b < 2 ^ 32 := by
  have := data.2
  simp only [logStart, sb, LOGSIZE, MAXOPBLOCKS] at this
  omega

theorem Wf.setEntry (wf : Wf s) (loaded : s.Loaded i) (used : (s.copy i).addrs NDIRECT ≠ 0)
    (empty : word (s.block ((s.copy i).addrs NDIRECT)) j = 0) (fresh : Fresh s b) :
    Wf (s.setEntry ((s.copy i).addrs NDIRECT) j b) := by
  have indirect := Wf.indirect loaded used
  apply wf.grow (s.inum i) (NDIRECT + 1 + j) b
  · rfl
  · exact fun i => ⟨rfl, rfl, rfl, rfl, rfl⟩
  · exact fun _ marked => marked
  · exact fresh.unreferenced
  · exact fresh.data
  · exact fresh.bit
  · have ne : b ≠ (s.copy i).addrs NDIRECT := by
      intro same
      exact fresh.unreferenced _ _ (same ▸ indirect)
    rw [← fresh.blank]
    exact update_of_ne ne ..
  · intro n k c ref notInd
    apply update_of_ne
    rintro rfl
    exact notInd (wf.once _ _ _ _ _ ref indirect).2
  · intro n d rep
    refine ⟨d, rep, rfl, rfl, fun k => ?_⟩
    rcases slot_setEntry fresh.data.small empty k with same | ⟨shared, hk, zero, new⟩
    · exact Or.inl same
    · have ref : s.Refers n NDIRECT ((s.copy i).addrs NDIRECT) :=
        ⟨used, NDIRECT_lt_NSLOT, d, rep, by rw [slot_direct (Nat.le_refl _), shared]⟩
      exact Or.inr ⟨(wf.once _ _ _ _ _ ref indirect).1, hk, zero, new⟩

/-! ## Writing data -/

/-- A block that some other slot refers to is no indirect block. -/
theorem Wf.setData_slot {data : Nat → Byte} {n' k' : Nat} {d : Dinode} (wf : Wf s) (ref : s.Refers n k a)
    (notInd : k ≠ NDIRECT) (rep : s.Copy n' d) : d.slot (s.setData a data).block k' = d.slot s.block k' := by
  apply slot_update_of_ne
  intro same
  have indirect : s.Refers n' NDIRECT a :=
    ⟨ref.1, NDIRECT_lt_NSLOT, d, rep, by rw [slot_direct (Nat.le_refl _), same]⟩
  exact notInd (wf.once _ _ _ _ _ ref indirect).2

/-- Data written to a block that is no indirect block. -/
theorem Wf.setData {data : Nat → Byte} (wf : Wf s) (ref : s.Refers n k a) (notInd : k ≠ NDIRECT)
    (entries : ∀ d, s.Copy n d → d.type = .dir → DirBlock data) : Wf (s.setData a data) := by
  have slots : ∀ n' d k', s.Copy n' d → d.slot (s.setData a data).block k' = d.slot s.block k' :=
    fun _ _ _ rep => wf.setData_slot ref notInd rep
  have refers : ∀ n' k' b, (s.setData a data).Refers n' k' b → s.Refers n' k' b := by
    rintro n' k' b ⟨used, lt, d, rep, eq⟩
    exact ⟨used, lt, d, rep, slots n' d k' rep ▸ eq⟩
  refine ⟨wf.unique, wf.inums, wf.coherent, wf.typed, ?_, ?_, ?_, wf.marked⟩
  · intro n' k' b n'' k'' ref ref'
    exact wf.once _ _ _ _ _ (refers _ _ _ ref) (refers _ _ _ ref')
  · intro n' k' b ref
    exact wf.data _ _ _ (refers _ _ _ ref)
  · intro n' d rep
    have sound := wf.sound n' d rep
    refine ⟨sound.fits, ?_, sound.whole, ?_⟩
    · intro bn inside
      rw [slots n' d _ rep]
      exact sound.filled bn inside
    · intro isDir k' lt notInd' used
      rw [slots n' d k' rep] at used ⊢
      rcases eq_or_ne (d.slot s.block k') a with rfl | ne
      · have same := wf.once _ _ _ _ _ ref (.of_slot rep lt used)
        obtain ⟨rfl, rfl⟩ := same
        change DirBlock (Function.update s.block _ data _)
        rw [update_self]
        exact entries d rep isDir
      · change DirBlock (Function.update s.block _ data _)
        rw [update_of_ne ne]
        exact sound.named isDir k' lt notInd' used

/-! ## Inodes -/

/-- The inode in entry `i` changed to `d` and written back. -/
def State.store (i : Fin NINODE) (d : Dinode) (s : State) : State :=
  ((s.setCopy i d).setDinode (s.inum i) d).absorb (IBLOCK (s.inum i))

theorem store_dinode_of_ne {d : Dinode} (h : n ≠ s.inum i) : (s.store i d).dinode n = s.dinode n :=
  update_of_ne h ..

theorem store_dinode_self {d : Dinode} : (s.store i d).dinode (s.inum i) = d := update_self ..

theorem store_loaded {d : Dinode} {j : Fin NINODE} : (s.store i d).Loaded j ↔ s.Loaded j := setCopy_loaded

theorem Wf.store (wf : Wf s) (loaded : s.Loaded i) {d : Dinode} (sound : Sound s.block d)
    (addrs : d.addrs = (s.copy i).addrs) (type : d.type = (s.copy i).type) : Wf (s.store i d) := by
  have others : ∀ j, s.Loaded j → j ≠ i → s.inum j ≠ s.inum i := by
    intro j loadedJ ne same
    exact ne (wf.unique j i loadedJ.1 loaded.1 same)
  have inums : ∀ j, (s.store i d).inum j = s.inum j := fun j => (setCopy_entry j).2.1
  have reps : ∀ n d', (s.store i d).Copy n d' → d' = d ∧ n = s.inum i ∨ s.Copy n d' := by
    rintro n d' (rfl | ⟨j, loadedJ, rfl, rfl⟩)
    · rcases eq_or_ne n (s.inum i) with rfl | ne
      · exact Or.inl ⟨store_dinode_self, rfl⟩
      · exact Or.inr (Or.inl (store_dinode_of_ne ne))
    · rw [inums]
      exact Copy.of_setCopy (Or.inr ⟨j, loadedJ, (setCopy_entry j).2.1, rfl⟩)
  have refers : ∀ n k b, (s.store i d).Refers n k b → s.Refers n k b := by
    rintro n k b ⟨used, lt, d', rep, rfl⟩
    rcases reps n d' rep with ⟨rfl, rfl⟩ | old
    · refine ⟨used, lt, s.copy i, loaded.rep, ?_⟩
      change Dinode.slot _ s.block k = Dinode.slot d' s.block k
      simp only [Dinode.slot, addrs]
    · exact ⟨used, lt, d', old, rfl⟩
  refine ⟨?_, ?_, ?_, ?_, ?_, ?_, ?_, wf.marked⟩
  · intro j j' live live' same
    rw [inums, inums] at same
    exact wf.unique j j' (setCopy_live.1 live) (setCopy_live.1 live') same
  · intro j live
    rw [inums]
    exact wf.inums j (setCopy_live.1 live)
  · intro j loadedJ
    rw [store_loaded] at loadedJ
    rw [inums]
    rcases eq_or_ne j i with rfl | ne
    · rw [store_dinode_self]
      change ((s.setCopy j d).copy j).type = _ ∧ ((s.setCopy j d).copy j).nlink = _
      rw [setCopy_self]
      exact ⟨rfl, rfl⟩
    · rw [store_dinode_of_ne (others j loadedJ ne)]
      change ((s.setCopy i d).copy j).type = _ ∧ ((s.setCopy i d).copy j).nlink = _
      rw [setCopy_of_ne ne]
      exact wf.coherent j loadedJ
  · intro j loadedJ
    rw [store_loaded] at loadedJ
    change ((s.setCopy i d).copy j).type ≠ _
    rcases eq_or_ne j i with rfl | ne
    · rw [setCopy_self, type]
      exact wf.typed j loadedJ
    · rw [setCopy_of_ne ne]
      exact wf.typed j loadedJ
  · intro n k b n' k' ref ref'
    exact wf.once _ _ _ _ _ (refers _ _ _ ref) (refers _ _ _ ref')
  · intro n k b ref
    exact wf.data _ _ _ (refers _ _ _ ref)
  · intro n d' rep
    rcases reps n d' rep with ⟨rfl, rfl⟩ | old
    · exact sound
    · exact wf.sound n d' old

end

end Xv6.Fs
