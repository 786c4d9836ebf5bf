import Xv6.Fs.Entries

/-!
# Specifications: blocks

What an execution may allocate, and the specifications of `balloc` and `bmap`. They speak of executions in which every `balloc` finds a free block of the
data area; `Room` says so of one observation.
-/

namespace Xv6.Fs

open Xv6.Lib Xv6.Lib.Eff

/-! ## Traces -/

/-- If a block was handed out then a block of the data area was free before. -/
def Room : Effect → Prop
  | .alloc before _ => ∃ b, DataBlock b ∧ before b = false

theorem BBLOCK_eq {b : Nat} (lt : b < BPB) : BBLOCK b = bitmapBlock := by
  simp [BBLOCK, bitmapBlock, Nat.div_eq_of_lt lt]

/-- A block that was handed out is a data block. -/
def InData : Effect → Prop
  | .alloc _ b => DataBlock b

/-- From `s`, if every `balloc` finds a data block free, then the blocks handed out are data blocks, and if `m`
returns then it does so with `Q`. -/
abbrev Ensures {α : Type} (m : M α) (Q : α → State → List Effect → Prop) (s : State) : Prop :=
  wp Room InData m Q s

/-! ## Blocks -/

section
variable {s s' : State} {i : Fin NINODE} {b c k : Nat}

theorem logWrite_spec : Ensures (logWrite b) (fun _ s' _ => s' = s.absorb b) s :=
  wp_state_bind (wp_ite (fun _ => wp_fail) fun _ => wp_ite (fun _ => wp_update rfl) fun _ => wp_fail)

/-- A block that `balloc` may return. -/
structure Allocates (s : State) (b : Nat) : Prop where
  data : DataBlock b
  free : s.bitmap b = false

/-- The first free block lies in the data area if any block of the data area is free. -/
theorem data_of_first (wf : Wf s) (first : (List.range sb.size).find? (fun b => !s.bitmap b) = some b)
    (room : ∃ d, DataBlock d ∧ s.bitmap d = false) : DataBlock b ∧ s.bitmap b = false := by
  rw [List.find?_range_eq_some] at first
  obtain ⟨free, _, least⟩ := first
  have free : s.bitmap b = false := by simpa using free
  obtain ⟨d, data, freeD⟩ := room
  refine ⟨⟨?_, ?_⟩, free⟩
  · by_contra low
    have := wf.marked b (by omega)
    simp [free] at this
  · have le : b ≤ d := by
      by_contra above
      have := least d (by omega)
      simp [freeD] at this
    exact Nat.lt_of_le_of_lt le data.2

theorem bzero_spec : Ensures (bzero b) (fun _ s' _ => s' = s.setData b fun _ => 0) s :=
  wp_update_bind logWrite_spec

theorem balloc_spec (wf : Wf s) : Ensures balloc (fun b s' _ => s' = s.take b ∧ Allocates s b) s := by
  refine wp_state_bind ?_
  split
  · exact wp_fail
  · rename_i b first
    have inside : b < sb.size := by
      have := (List.find?_range_eq_some.1 first).2.1
      simpa using this
    rw [BBLOCK_eq (inside.trans (by decide))]
    refine wp_update_bind (wp_then logWrite_spec ?_)
    rintro _ _ _ rfl
    refine wp_then bzero_spec ?_
    rintro _ _ _ rfl
    refine wp_bind (wp_emit (fun room => (data_of_first wf first room).1) fun room => wp_pure ⟨rfl, ?_⟩)
    obtain ⟨data, free⟩ := data_of_first wf first room
    exact ⟨data, free⟩

/-! ## The blocks of an inode -/

/-- The inode of entry `i` may have other addresses; entries and disk inodes are the same otherwise. -/
structure Steady (i : Fin NINODE) (s s' : State) : Prop where
  others : ∀ j, j ≠ i → s'.icache j = s.icache j
  own : s'.icache i = { s.icache i with copy := { s.copy i with addrs := (s'.copy i).addrs } }
  dinode : s'.dinode = s.dinode

theorem Steady.refl : Steady i s s := ⟨fun _ _ => rfl, rfl, rfl⟩

theorem Steady.trans {s'' : State} (first : Steady i s s') (second : Steady i s' s'') : Steady i s s'' := by
  refine ⟨?_, ?_, second.dinode.trans first.dinode⟩
  · intro j ne
    rw [second.others j ne, first.others j ne]
  · rw [second.own]
    exact congrArg (fun ip : Inode => { ip with copy := { ip.copy with addrs := (s''.copy i).addrs } }) first.own

section
variable (steady : Steady i s s')
include steady

/-- Every entry of the cache holds the same inode as before. -/
theorem Steady.entry (j : Fin NINODE) : (s'.icache j).ref = (s.icache j).ref ∧
    s'.inum j = s.inum j ∧ (s'.icache j).valid = (s.icache j).valid ∧ (s'.copy j).type = (s.copy j).type ∧
    (s'.copy j).nlink = (s.copy j).nlink ∧ (s'.copy j).size = (s.copy j).size := by
  simp only [State.inum, State.copy]
  rcases eq_or_ne j i with rfl | ne
  · rw [steady.own]
    exact ⟨rfl, rfl, rfl, rfl, rfl, rfl⟩
  · rw [steady.others j ne]
    exact ⟨rfl, rfl, rfl, rfl, rfl, rfl⟩

theorem Steady.inum {j : Fin NINODE} : s'.inum j = s.inum j := (steady.entry j).2.1

theorem Steady.type {j : Fin NINODE} : (s'.copy j).type = (s.copy j).type :=
  (steady.entry j).2.2.2.1

theorem Steady.size {j : Fin NINODE} : (s'.copy j).size = (s.copy j).size :=
  (steady.entry j).2.2.2.2.2

theorem Steady.loaded {j : Fin NINODE} : s'.Loaded j ↔ s.Loaded j := by
  simp only [State.Loaded, State.Live, (steady.entry j).1, (steady.entry j).2.2.1]

end

/-- Inode `i` may have got further blocks, and nothing else has changed. -/
structure Grown (i : Fin NINODE) (s s' : State) : Prop extends Steady i s s' where
  refers : ∀ n k c, s.Refers n k c → s'.Refers n k c
  contents : ∀ n k c, s.Refers n k c → k ≠ NDIRECT → s'.block c = s.block c
  outside : ∀ n k c, s.Refers n k c → n ≠ s.inum i → s'.block c = s.block c

theorem Grown.refl : Grown i s s := ⟨.refl, fun _ _ _ h => h, fun _ _ _ _ _ => rfl, fun _ _ _ _ _ => rfl⟩

theorem Grown.trans {s'' : State} (first : Grown i s s') (second : Grown i s' s'') : Grown i s s'' := by
  refine ⟨first.toSteady.trans second.toSteady, fun n k c ref => second.refers _ _ _ (first.refers _ _ _ ref), ?_, ?_⟩
  · intro n k c ref notInd
    rw [second.contents n k c (first.refers n k c ref) notInd, first.contents n k c ref notInd]
  · intro n k c ref other
    rw [second.outside n k c (first.refers n k c ref) (first.inum ▸ other), first.outside n k c ref other]

theorem Grown.take (wf : Wf s) (free : s.bitmap b = false) (data : DataBlock b) : Grown i s (s.take b) := by
  have kept : ∀ n k c, s.Refers n k c → (s.take b).block c = s.block c := by
    intro n k c ref
    apply take_block_of_ne
    rintro rfl
    exact wf.unreferenced free n k ref
  refine ⟨⟨fun _ _ => rfl, rfl, rfl⟩, ?_, fun n k c ref _ => kept n k c ref, fun n k c ref _ => kept n k c ref⟩
  rintro n k c ⟨used, lt, d, rep, eq⟩
  exact ⟨used, lt, d, rep, (wf.take_slot free data rep).trans eq⟩

theorem Grown.setAddr (le : k ≤ NDIRECT) (empty : (s.copy i).addrs k = 0) (blank : s.block b = fun _ => 0) :
    Grown i s (s.setAddr i k b) := by
  refine ⟨⟨fun j ne => setInode_of_ne ne, ?_, rfl⟩, ?_, fun _ _ _ _ _ => rfl, fun _ _ _ _ _ => rfl⟩
  · rw [State.setAddr, setCopy_self]
    exact setInode_self
  · rintro n j c ⟨used, lt, d, rep | ⟨j', loaded, rfl, rfl⟩, rfl⟩
    · exact ⟨used, lt, d, Or.inl rep, rfl⟩
    · have loaded' : (s.setAddr i k b).Loaded j' := setCopy_loaded.2 loaded
      have sameInum : (s.setAddr i k b).inum j' = s.inum j' := (setCopy_entry j').2.1
      refine ⟨used, lt, (s.setAddr i k b).copy j', Or.inr ⟨j', loaded', sameInum, rfl⟩, ?_⟩
      rcases eq_or_ne j' i with rfl | ne
      · exact (slot_setAddr le empty blank j).resolve_right fun h => used h.2.1
      · rw [State.setAddr, setCopy_of_ne ne]
        rfl

theorem Grown.setEntry {a j : Nat} (wf : Wf s) (ref : s.Refers (s.inum i) NDIRECT a) (small : b < 2 ^ 32)
    (empty : word (s.block a) j = 0) : Grown i s (s.setEntry a j b) := by
  refine ⟨⟨fun _ _ => rfl, rfl, rfl⟩, ?_, ?_, ?_⟩
  · rintro n k c ⟨used, lt, d, rep, rfl⟩
    exact ⟨used, lt, d, rep, (slot_setEntry small empty k).resolve_right fun h => used h.2.2.1⟩
  · intro n k c ref' notInd
    apply Function.update_of_ne
    rintro rfl
    exact notInd (wf.once _ _ _ _ _ ref' ref).2
  · intro n k c ref' other
    apply Function.update_of_ne
    rintro rfl
    exact other (wf.once _ _ _ _ _ ref' ref).1

/-- An address that was there is returned as it is; otherwise a block is taken for it. -/
theorem loadAddr_spec (wf : Wf s) (loaded : s.Loaded i) (le : k ≤ NDIRECT) :
    Ensures (loadAddr i k) (fun b s' _ =>
      (s.copy i).addrs k ≠ 0 ∧ b = (s.copy i).addrs k ∧ s' = s ∨
      (s.copy i).addrs k = 0 ∧ s' = (s.take b).setAddr i k b ∧ Wf s' ∧ Allocates s b) s := by
  refine wp_state_bind (wp_ite ?_ ?_)
  · intro empty
    refine wp_then (balloc_spec wf) ?_
    rintro b _ t ⟨rfl, alloc⟩
    refine wp_update_bind (wp_pure (Or.inr ⟨empty, rfl, ?_, alloc⟩))
    exact (wf.take alloc.free alloc.data).setAddr loaded le empty (wf.take_fresh alloc.free alloc.data)
  · intro used
    exact wp_pure (Or.inl ⟨used, rfl, rfl⟩)

/-- An entry of the indirect block that was there is returned as it is; otherwise a block is taken for it. -/
theorem loadEntry_spec {j : Nat} (wf : Wf s) (loaded : s.Loaded i) (used : (s.copy i).addrs NDIRECT ≠ 0) :
    Ensures (loadEntry ((s.copy i).addrs NDIRECT) j) (fun b s' _ =>
      s.slot i (NDIRECT + 1 + j) ≠ 0 ∧ b = s.slot i (NDIRECT + 1 + j) ∧ s' = s ∨
      s.slot i (NDIRECT + 1 + j) = 0 ∧ s' = (s.take b).setEntry ((s.copy i).addrs NDIRECT) j b ∧ Wf s' ∧
        Allocates s b) s := by
  have entry : s.slot i (NDIRECT + 1 + j) = word (s.block ((s.copy i).addrs NDIRECT)) j := slot_entry used
  refine wp_state_bind (wp_ite ?_ ?_)
  · intro empty
    refine wp_then (balloc_spec wf) ?_
    rintro b _ t ⟨rfl, alloc⟩
    have ne : (s.copy i).addrs NDIRECT ≠ b := by
      rintro rfl
      exact wf.unreferenced alloc.free _ _ (Wf.indirect loaded used)
    have still : word ((s.take b).block ((s.copy i).addrs NDIRECT)) j = 0 := by rwa [take_block_of_ne ne]
    have wf' := (wf.take alloc.free alloc.data).setEntry loaded used still (wf.take_fresh alloc.free alloc.data)
    refine wp_update_bind (wp_then logWrite_spec ?_)
    rintro _ _ _ rfl
    exact wp_pure (Or.inr ⟨entry.trans empty, rfl, wf', alloc⟩)
  · intro some
    exact wp_pure (Or.inl ⟨entry ▸ some, entry.symm, rfl⟩)

/-- What `bmap` does to get the block `b` for block `bn` of inode `i`. -/
structure Mapped (i : Fin NINODE) (bn : Nat) (s s' : State) (b : Nat) : Prop where
  wf : Wf s'
  grown : Grown i s s'
  slot : s'.slot i (fileSlot bn) = b
  used : b ≠ 0
  same : s.slot i (fileSlot bn) ≠ 0 → s' = s
  blank : s.slot i (fileSlot bn) = 0 → s'.block b = fun _ => 0
  slots : ∀ k, k ≠ fileSlot bn → k ≠ NDIRECT → s'.slot i k = s.slot i k
  indirect : s.slot i NDIRECT ≠ 0 → s'.slot i NDIRECT = s.slot i NDIRECT

/-- A block that is there already. -/
theorem Mapped.present {bn : Nat} (wf : Wf s) (used : s.slot i (fileSlot bn) ≠ 0) :
    Mapped i bn s s (s.slot i (fileSlot bn)) where
  wf := wf
  grown := .refl
  slot := rfl
  used := used
  same _ := rfl
  blank empty := absurd empty used
  slots _ _ _ := rfl
  indirect _ := rfl

/-- The slots after address `k` of entry `i` was set to a block just taken. -/
theorem taken_slot (wf : Wf s) (loaded : s.Loaded i) (le : k ≤ NDIRECT) (empty : (s.copy i).addrs k = 0)
    (free : s.bitmap b = false) (data : DataBlock b) (j : Nat) :
    ((s.take b).setAddr i k b).slot i j = s.slot i j ∨
      j = k ∧ s.slot i j = 0 ∧ ((s.take b).setAddr i k b).slot i j = b := by
  have taken : (s.take b).slot i j = s.slot i j := wf.take_slot free data loaded.rep
  have step := slot_setAddr (s := s.take b) le empty (wf.take_fresh free data).blank j
  rwa [taken] at step

theorem setAddr_self (le : k ≤ NDIRECT) : (s.setAddr i k b).slot i k = b := by
  rw [State.slot, slot_direct le, State.setAddr, setCopy_self]
  exact Function.update_self ..

theorem bmap_direct_spec {bn : Nat} (wf : Wf s) (loaded : s.Loaded i) (lt : bn < NDIRECT) :
    Ensures (loadAddr i bn) (fun b s' _ => Mapped i bn s s' b) s := by
  have place : fileSlot bn = bn := if_pos lt
  have direct : s.slot i bn = (s.copy i).addrs bn := slot_direct (Nat.le_of_lt lt)
  refine wp_mono (loadAddr_spec wf loaded (Nat.le_of_lt lt)) ?_
  rintro b s' t (⟨used, rfl, rfl⟩ | ⟨empty, rfl, wf', alloc⟩)
  · have present : Mapped i bn _ _ _ := .present wf (by rwa [place, direct])
    rwa [place, direct] at present
  · have fresh := wf.take_fresh alloc.free alloc.data
    have slots := taken_slot wf loaded (Nat.le_of_lt lt) empty alloc.free alloc.data
    have grown : Grown i s ((s.take b).setAddr i bn b) :=
      (Grown.take wf alloc.free alloc.data).trans (Grown.setAddr (Nat.le_of_lt lt) empty fresh.blank)
    rw [← direct] at empty
    refine ⟨wf', grown, ?_, alloc.data.ne_zero, ?_, fun _ => fresh.blank, ?_, ?_⟩
    · rw [place]
      exact setAddr_self (Nat.le_of_lt lt)
    · rw [place]
      exact fun used => absurd empty used
    · rw [place]
      intro k ne _
      exact (slots k).resolve_right fun h => ne h.1
    · intro _
      exact (slots NDIRECT).resolve_right fun h => Nat.ne_of_gt lt h.1

/-- An entry `j` of the indirect block that is set to a block just taken. -/
theorem Mapped.entry {j a : Nat} (wf : Wf s) (loaded : s.Loaded i)
    (indirect : (s.copy i).addrs NDIRECT = a) (used : a ≠ 0) (empty : s.slot i (NDIRECT + 1 + j) = 0)
    (wf' : Wf ((s.take b).setEntry a j b)) (alloc : Allocates s b) :
    Mapped i (NDIRECT + j) s ((s.take b).setEntry a j b) b := by
  subst indirect
  have place : fileSlot (NDIRECT + j) = NDIRECT + 1 + j := by
    rw [fileSlot, if_neg (by omega)]
    omega
  have ref := Wf.indirect loaded used
  have ne : (s.copy i).addrs NDIRECT ≠ b := by
    rintro rfl
    exact wf.unreferenced alloc.free _ _ ref
  have still : word ((s.take b).block ((s.copy i).addrs NDIRECT)) j = 0 := by
    rw [take_block_of_ne ne, ← slot_entry used]
    exact empty
  have growTake : Grown i s (s.take b) := Grown.take wf alloc.free alloc.data
  have grown := growTake.trans (Grown.setEntry (wf.take alloc.free alloc.data) (growTake.refers _ _ _ ref)
    alloc.data.small still)
  have blank : ((s.take b).setEntry ((s.copy i).addrs NDIRECT) j b).block b = fun _ => 0 :=
    (Function.update_of_ne ne.symm ..).trans (wf.take_fresh alloc.free alloc.data).blank
  -- the slots of `s`, then those of `s.take b`, then the one that is set
  have slots : ∀ k, ((s.take b).setEntry ((s.copy i).addrs NDIRECT) j b).slot i k = s.slot i k ∨
      k = NDIRECT + 1 + j := by
    intro k
    have taken : (s.take b).slot i k = s.slot i k := wf.take_slot alloc.free alloc.data loaded.rep
    rcases slot_setEntry (d := s.copy i) alloc.data.small still k with same | ⟨_, hk, _⟩
    · exact Or.inl (same.trans taken)
    · exact Or.inr hk
  have direct : ((s.take b).setEntry ((s.copy i).addrs NDIRECT) j b).slot i NDIRECT = (s.copy i).addrs NDIRECT :=
    slot_direct (Nat.le_refl _)
  refine ⟨wf', grown, ?_, alloc.data.ne_zero, ?_, fun _ => blank, ?_, ?_⟩
  · have set : ((s.take b).setEntry ((s.copy i).addrs NDIRECT) j b).block ((s.copy i).addrs NDIRECT) =
        setWord ((s.take b).block ((s.copy i).addrs NDIRECT)) j b := Function.update_self ..
    rw [place]
    change Dinode.slot (s.copy i) _ _ = b
    rw [slot_entry used, set]
    exact word_setWord alloc.data.small
  · rw [place]
    exact fun h => absurd empty h
  · rw [place]
    intro k ne _
    exact (slots k).resolve_right ne
  · intro _
    exact direct.trans (slot_direct (Nat.le_refl _)).symm

/-- The same after the indirect block itself was taken. -/
theorem Mapped.entry_new {j a : Nat} (wf : Wf s) (loaded : s.Loaded i)
    (empty : (s.copy i).addrs NDIRECT = 0) (alloc : Allocates s a)
    (mapped : Mapped i (NDIRECT + j) ((s.take a).setAddr i NDIRECT a) s' b)
    (none : ((s.take a).setAddr i NDIRECT a).slot i (NDIRECT + 1 + j) = 0) :
    Mapped i (NDIRECT + j) s s' b := by
  have place : fileSlot (NDIRECT + j) = NDIRECT + 1 + j := by
    rw [fileSlot, if_neg (by omega)]
    omega
  have slots := taken_slot wf loaded (Nat.le_refl _) empty alloc.free alloc.data
  have grown : Grown i s ((s.take a).setAddr i NDIRECT a) :=
    (Grown.take wf alloc.free alloc.data).trans
      (Grown.setAddr (Nat.le_refl _) empty (wf.take_fresh alloc.free alloc.data).blank)
  have was : s.slot i (NDIRECT + 1 + j) = 0 := by
    rcases slots (NDIRECT + 1 + j) with same | ⟨_, zero, _⟩
    · rwa [← same]
    · exact zero
  rw [← place] at was none
  refine ⟨mapped.wf, grown.trans mapped.grown, mapped.slot, mapped.used, fun used => absurd was used,
    fun _ => mapped.blank none, ?_, ?_⟩
  · intro k ne notInd
    rw [mapped.slots k ne notInd]
    exact (slots k).resolve_right fun h => notInd h.1
  · intro used
    exact absurd ((slot_direct (Nat.le_refl _)).trans empty) used

/-- **What `bmap` does.** -/
theorem bmap_spec {bn : Nat} (wf : Wf s) (loaded : s.Loaded i) :
    Ensures (bmap i bn) (fun b s' _ => Mapped i bn s s' b) s := by
  refine wp_ite (bmap_direct_spec wf loaded) fun above => wp_ite (fun _ => ?_) fun _ => wp_fail
  obtain ⟨j, rfl⟩ := Nat.exists_eq_add_of_le (Nat.not_lt.1 above)
  rw [Nat.add_sub_cancel_left]
  have place : fileSlot (NDIRECT + j) = NDIRECT + 1 + j := by
    rw [fileSlot, if_neg (by omega)]
    omega
  refine wp_then (loadAddr_spec wf loaded (Nat.le_refl _)) ?_
  rintro a s1 t (⟨used, rfl, rfl⟩ | ⟨empty, rfl, wf1, alloc⟩)
  · refine wp_mono (loadEntry_spec wf loaded used) ?_
    rintro b s' t (⟨some, rfl, rfl⟩ | ⟨none, rfl, wf', alloc⟩)
    · have present : Mapped i (NDIRECT + j) _ _ _ := .present wf (by rwa [place])
      rwa [place] at present
    · exact Mapped.entry wf loaded rfl used none wf' alloc
  · have indirect : (((s.take a).setAddr i NDIRECT a).copy i).addrs NDIRECT = a :=
      (slot_direct (Nat.le_refl _)).symm.trans (setAddr_self (Nat.le_refl _))
    have used : (((s.take a).setAddr i NDIRECT a).copy i).addrs NDIRECT ≠ 0 := by
      rw [indirect]
      exact alloc.data.ne_zero
    have loaded1 : ((s.take a).setAddr i NDIRECT a).Loaded i := setCopy_loaded.2 loaded
    have spec := loadEntry_spec (j := j) wf1 loaded1 used
    rw [indirect] at spec
    refine wp_mono spec ?_
    rintro b s' t' (⟨some, _⟩ | ⟨none, rfl, wf', alloc'⟩)
    · -- the indirect block is new, so none of its entries is in use
      refine absurd ?_ some
      change Dinode.slot _ _ _ = 0
      have blank : ((s.take a).setAddr i NDIRECT a).block a = fun _ => 0 :=
        (wf.take_fresh alloc.free alloc.data).blank
      rw [slot_entry used, indirect, blank, word_zero]
    · exact Mapped.entry_new wf loaded empty alloc
        (Mapped.entry wf1 loaded1 indirect alloc.data.ne_zero none wf' alloc') none

/-- Slots in use stay as they are. -/
theorem Mapped.mono {bn : Nat} (mapped : Mapped i bn s s' b) (k : Nat)
    (used : s.slot i k ≠ 0) : s'.slot i k = s.slot i k := by
  rcases eq_or_ne k (fileSlot bn) with rfl | ne
  · rw [mapped.same used]
  · rcases eq_or_ne k NDIRECT with rfl | notInd
    · exact mapped.indirect used
    · exact mapped.slots k ne notInd

/-! ## Writing an inode back -/

theorem iupdate_spec : Ensures (iupdate i)
    (fun _ s' _ => s' = (s.setDinode (s.inum i) (s.copy i)).absorb (IBLOCK (s.inum i))) s :=
  wp_state_bind (wp_update_bind logWrite_spec)

theorem setCopy_writeBack {d : Dinode} :
    ((s.setCopy i d).setDinode ((s.setCopy i d).inum i) ((s.setCopy i d).copy i)).absorb
      (IBLOCK ((s.setCopy i d).inum i)) = s.store i d := by
  rw [setCopy_self, (setCopy_entry i).2.1]
  rfl

/-- The inode in entry `i` is changed and written back. -/
theorem store_spec {f : Dinode → Dinode} : Ensures (do setCopy i f; iupdate i)
    (fun _ s' _ => s' = s.store i (f (s.copy i))) s := by
  refine wp_update_bind (wp_mono iupdate_spec ?_)
  rintro _ _ _ rfl
  exact setCopy_writeBack

end

end Xv6.Fs
