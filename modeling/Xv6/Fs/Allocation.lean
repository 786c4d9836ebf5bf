import Xv6.Fs.WriteSpec

/-!
# Writing does not fail while there are free blocks and places in the log

Outside of a transaction `log_write` stops the kernel, and without a free block
`balloc` does. Otherwise `bmap` and `writei` return, and the blocks they take are
the ones the file did not have yet, unless the log is full: then `log_write` stops
the kernel too. A request logs the blocks it touches and, once each, the bitmap
block, the block of the inode and the indirect block. `State.load` counts these
three from the start, so that every block of the request costs one place.
-/

namespace Xv6.Fs

open Xv6.Lib Xv6.Lib.Eff

/-! ## Places in the log -/

/-- 1 if block `b` has no place in the log yet. -/
def State.unlogged (s : State) (b : Nat) : Nat := if b ∈ s.lh then 0 else 1

/-- The length of the log with the bitmap block, the block of the inode in entry `i` and its indirect block in it. -/
def State.load (s : State) (i : Fin NINODE) : Nat :=
  s.lh.length + s.unlogged bitmapBlock + s.unlogged (IBLOCK (s.inum i)) +
    if (s.copy i).addrs NDIRECT = 0 then 1 else s.unlogged ((s.copy i).addrs NDIRECT)

/-- How the code stops if the log has no more than `n` places. -/
def LogFull (n : Nat) : Panic → State → List Effect → Prop := fun e _ _ => e = .tooBigATransaction ∧ sb.nlog - 1 ≤ n

section
variable {s s' : State} {i : Fin NINODE} {a b c j k n n' : Nat}

theorem LogFull.mono {e : Panic} {t t' : List Effect} (full : LogFull n e s t) (le : n ≤ n') : LogFull n' e s' t' :=
  ⟨full.1, full.2.trans le⟩

theorem unlogged_le : s.unlogged b ≤ 1 := by
  unfold State.unlogged
  split <;> omega

theorem length_le_load : s.lh.length ≤ s.load i := by
  unfold State.load
  omega

theorem load_le : s.load i ≤ s.lh.length + 3 := by
  have bitmap : s.unlogged bitmapBlock ≤ 1 := unlogged_le
  have inode : s.unlogged (IBLOCK (s.inum i)) ≤ 1 := unlogged_le
  have indirect : s.unlogged ((s.copy i).addrs NDIRECT) ≤ 1 := unlogged_le
  unfold State.load
  split <;> omega

theorem absorb_length : (s.absorb b).lh.length = s.lh.length + s.unlogged b := by
  unfold State.absorb State.unlogged
  dsimp only
  split
  · rfl
  · rw [List.length_append, List.length_singleton]

theorem absorb_unlogged : (s.absorb b).unlogged c = if c = b then 0 else s.unlogged c := by
  unfold State.absorb State.unlogged
  dsimp only
  split <;> rcases eq_or_ne c b with rfl | ne <;> simp_all

/-- A block takes a place, unless it has one. -/
theorem load_absorb : (s.absorb b).load i ≤ s.load i + s.unlogged b := by
  have inum : (s.absorb b).inum i = s.inum i := rfl
  have copy : (s.absorb b).copy i = s.copy i := rfl
  simp only [State.load, absorb_length, absorb_unlogged, inum, copy]
  split_ifs <;> omega

/-- One of the three blocks that are counted already takes no further place. -/
theorem load_absorb_counted (counted : b = bitmapBlock ∨ b = IBLOCK (s.inum i) ∨
    (s.copy i).addrs NDIRECT ≠ 0 ∧ b = (s.copy i).addrs NDIRECT) : (s.absorb b).load i ≤ s.load i := by
  have inum : (s.absorb b).inum i = s.inum i := rfl
  have copy : (s.absorb b).copy i = s.copy i := rfl
  simp only [State.load, absorb_length, absorb_unlogged, inum, copy]
  rcases counted with rfl | rfl | ⟨used, rfl⟩
  · split_ifs <;> omega
  · split_ifs <;> omega
  · rw [if_neg used, if_neg used, if_pos rfl]
    split_ifs <;> omega

theorem load_take : (s.take b).load i ≤ s.load i + 1 := by
  have bitmap : ((s.setBit b true).absorb bitmapBlock).load i ≤ s.load i := load_absorb_counted (.inl rfl)
  have block : (s.take b).load i ≤ ((s.setBit b true).absorb bitmapBlock).load i + _ := load_absorb
  exact block.trans (Nat.add_le_add bitmap unlogged_le)

theorem take_logged : (s.take b).unlogged b = 0 := absorb_unlogged.trans (if_pos rfl)

/-- A fresh indirect block has its place already. -/
theorem load_setAddr_indirect (empty : (s.copy i).addrs NDIRECT = 0) (some_ : b ≠ 0) (logged : s.unlogged b = 0) :
    (s.setAddr i NDIRECT b).load i + 1 = s.load i := by
  have inum : (s.setAddr i NDIRECT b).inum i = s.inum i := (setCopy_entry i).2.1
  have new : ((s.setAddr i NDIRECT b).copy i).addrs NDIRECT = b :=
    (slot_direct (Nat.le_refl _)).symm.trans (setAddr_self (Nat.le_refl _))
  have there : (s.setAddr i NDIRECT b).unlogged b = 0 := logged
  simp only [State.load, inum, new, if_neg some_, there, if_pos empty]
  rfl

theorem load_setAddr_direct (lt : k < NDIRECT) : (s.setAddr i k b).load i = s.load i := by
  have inum : (s.setAddr i k b).inum i = s.inum i := (setCopy_entry i).2.1
  have same : ((s.setAddr i k b).copy i).addrs NDIRECT = (s.copy i).addrs NDIRECT := by
    rw [State.setAddr, setCopy_self]
    exact Function.update_of_ne (Nat.ne_of_gt lt) ..
  simp only [State.load, inum, same]
  rfl

theorem load_setEntry (used : (s.copy i).addrs NDIRECT ≠ 0) :
    (s.setEntry ((s.copy i).addrs NDIRECT) j b).load i ≤ s.load i :=
  load_absorb_counted (s := s.setBlock _ _) (.inr (.inr ⟨used, rfl⟩))

end

/-! ## Free blocks -/

/-- The free blocks of the data area. -/
def State.freeBlocks (s : State) : Finset Nat := (Finset.Ico firstData logStart).filter fun b => s.bitmap b = false

/-- Number of free blocks. -/
def State.room (s : State) : Nat := s.freeBlocks.card

/-- A transaction is open, and the blocks before the data area are marked. -/
structure Ready (s : State) : Prop where
  trans : s.inTrans = true
  marked : ∀ b < firstData, s.bitmap b = true

/-- An execution that took at most `n` blocks, and found a free one whenever it asked for one. -/
structure Spent (n : Nat) (s s' : State) (t : List Effect) : Prop where
  ready : Ready s'
  room : s.room ≤ s'.room + n
  fine : ∀ w ∈ t, Room w

section
variable {s s' s'' : State} {i : Fin NINODE} {b bn k n n' off : Nat} {t t' : List Effect} {src : List Byte}

theorem Spent.none (ready : Ready s) : Spent 0 s s [] := ⟨ready, Nat.le_refl _, fun _ mem => by cases mem⟩

theorem Spent.mono (spent : Spent n s s' t) (le : n ≤ n') : Spent n' s s' t :=
  ⟨spent.ready, spent.room.trans (Nat.add_le_add_left le _), spent.fine⟩

theorem Spent.append (first : Spent n s s' t) (second : Spent n' s' s'' t') : Spent (n + n') s s'' (t ++ t') where
  ready := second.ready
  room := by
    have one := first.room
    have two := second.room
    omega
  fine w mem := (List.mem_append.1 mem).elim (first.fine w) (second.fine w)

/-- Changes to the contents of blocks, to the inode cache and to the log take no block. -/
theorem Spent.change (spent : Spent n s s' t) (trans : s''.inTrans = s'.inTrans) (bitmap : s''.bitmap = s'.bitmap) :
    Spent n s s'' t where
  ready := ⟨trans.trans spent.ready.trans, bitmap ▸ spent.ready.marked⟩
  room := by
    have same : s''.room = s'.room := by rw [State.room, State.room, State.freeBlocks, State.freeBlocks, bitmap]
    rw [same]
    exact spent.room
  fine := spent.fine

theorem logWrite_returns (trans : s.inTrans = true) :
    yields (logWrite b) (fun _ s' t => s' = s.absorb b ∧ t = []) (LogFull s.lh.length) s := by
  refine yields_state_bind (yields_ite (fun full => yields_fail ⟨rfl, ?_⟩) fun _ => ?_)
  · simp only [sb] at full ⊢
    omega
  · rw [if_pos trans]
    exact yields_update ⟨rfl, rfl⟩

theorem mem_freeBlocks : b ∈ s.freeBlocks ↔ DataBlock b ∧ s.bitmap b = false := by
  simp [State.freeBlocks, DataBlock]

/-- Taking one block leaves all free blocks but that one. -/
theorem room_take : s.room ≤ (s.take b).room + 1 := by
  have sub : s.freeBlocks.erase b ⊆ (s.take b).freeBlocks := by
    intro c mem
    obtain ⟨ne, free⟩ := Finset.mem_erase.1 mem
    obtain ⟨data, clear⟩ := mem_freeBlocks.1 free
    refine mem_freeBlocks.2 ⟨data, ?_⟩
    exact (Function.update_of_ne ne ..).trans clear
  have card := Finset.card_le_card sub
  have erased := Finset.pred_card_le_card_erase (s := s.freeBlocks) (a := b)
  simp only [State.room]
  omega

theorem Ready.take (ready : Ready s) : Ready (s.take b) := by
  refine ⟨ready.trans, fun c low => ?_⟩
  change Function.update s.bitmap b true c = true
  rcases eq_or_ne c b with rfl | ne
  · exact Function.update_self ..
  · exact (Function.update_of_ne ne ..).trans (ready.marked c low)

theorem exists_free (some_ : 0 < s.room) : ∃ d, DataBlock d ∧ s.bitmap d = false := by
  obtain ⟨d, mem⟩ := Finset.card_pos.1 some_
  exact ⟨d, mem_freeBlocks.1 mem⟩

theorem DataBlock.lt_size (data : DataBlock b) : b < sb.size := by
  have := data.2
  simp only [logStart] at this
  omega

theorem balloc_returns (i : Fin NINODE) (ready : Ready s) (some_ : 0 < s.room) :
    yields balloc (fun b s' t => s' = s.take b ∧ b ≠ 0 ∧ Spent 1 s s' t) (LogFull (s.load i)) s := by
  have found : ∃ b, (List.range sb.size).find? (fun b => !s.bitmap b) = some b := by
    obtain ⟨d, data, free⟩ := exists_free some_
    refine Option.isSome_iff_exists.1 (List.find?_isSome.2 ⟨d, ?_, by simp [free]⟩)
    exact List.mem_range.2 data.lt_size
  obtain ⟨b, first⟩ := found
  obtain ⟨free, inside, -⟩ := List.find?_range_eq_some.1 first
  have nonzero : b ≠ 0 := by
    rintro rfl
    simp [ready.marked 0 (by decide)] at free
  refine yields_state_bind ?_
  rw [first]
  dsimp only
  rw [BBLOCK_eq (b := b) ((List.mem_range.1 inside).trans (by decide))]
  refine yields_update_bind (yields_then (logWrite_returns ready.trans) (fun _ _ _ full => full.mono length_le_load) ?_)
  rintro _ _ _ ⟨rfl, rfl⟩
  refine yields_then (Q := fun _ s' t => s' = s.take b ∧ t = []) (F := LogFull (s.load i)) ?_ (fun _ _ _ full => full) ?_
  · refine yields_update_bind (yields_mono (logWrite_returns ready.trans) (fun _ _ _ done => done) fun _ _ _ full => ?_)
    have marked : ((s.setBit b true).absorb bitmapBlock).load i ≤ s.load i := load_absorb_counted (.inl rfl)
    exact full.mono (length_le_load.trans marked)
  · rintro _ _ _ ⟨rfl, rfl⟩
    refine yields_then (Q := fun _ s' t => s' = s.take b ∧ t = [.alloc s.bitmap b]) (yields_emit ⟨rfl, rfl⟩)
      (fun _ _ _ full => full) ?_
    rintro _ _ _ ⟨rfl, rfl⟩
    refine yields_pure ⟨rfl, nonzero, ready.take, room_take, fun w mem => ?_⟩
    obtain rfl : w = .alloc s.bitmap b := by simpa using mem
    exact exists_free some_

/-! ## The blocks a request needs -/

/-- The blocks `bmap` takes to get block `bn`. -/
def State.cost (s : State) (i : Fin NINODE) (bn : Nat) : Nat :=
  (if s.slot i (fileSlot bn) = 0 then 1 else 0) + if NDIRECT ≤ bn ∧ s.slot i NDIRECT = 0 then 1 else 0

theorem loadAddr_returns (ready : Ready s) (enough : (s.copy i).addrs k = 0 → 0 < s.room) :
    yields (loadAddr i k) (fun a s' t => (s.copy i).addrs k ≠ 0 ∧ a = (s.copy i).addrs k ∧ s' = s ∧ t = [] ∨
      (s.copy i).addrs k = 0 ∧ s' = (s.take a).setAddr i k a ∧ a ≠ 0 ∧ Spent 1 s s' t) (LogFull (s.load i)) s := by
  refine yields_state_bind (yields_ite (fun empty => ?_) fun used => ?_)
  · refine yields_then (balloc_returns i ready (enough empty)) (fun _ _ _ full => full) ?_
    rintro b _ t ⟨rfl, nonzero, spent⟩
    refine yields_update_bind (yields_pure (.inr ⟨empty, rfl, nonzero, ?_⟩))
    rw [List.append_nil]
    exact spent.change rfl rfl
  · exact yields_pure (.inl ⟨used, rfl, rfl, rfl⟩)

theorem loadEntry_returns {a j : Nat} (ready : Ready s) (indirect : (s.copy i).addrs NDIRECT = a) (some_ : a ≠ 0)
    (enough : word (s.block a) j = 0 → 0 < s.room) :
    yields (loadEntry a j) (fun b s' t => Spent (if word (s.block a) j = 0 then 1 else 0) s s' t ∧
      s'.load i + s'.unlogged b ≤ s.load i + 1) (LogFull (s.load i + 1)) s := by
  subst indirect
  refine yields_state_bind (yields_ite (fun empty => ?_) fun used => ?_)
  · rw [if_pos empty]
    refine yields_then (balloc_returns i ready (enough empty)) (fun _ _ _ full => full.mono (Nat.le_succ _)) ?_
    rintro b _ t ⟨rfl, -, spent⟩
    have taken : (s.take b).load i ≤ s.load i + 1 := load_take
    refine yields_update_bind (yields_then (logWrite_returns spent.ready.trans) (fun _ _ _ full => ?_) ?_)
    · exact full.mono ((length_le_load (s := s.take b)).trans taken)
    rintro _ _ _ ⟨rfl, rfl⟩
    refine yields_pure ⟨?_, ?_⟩
    · rw [List.append_nil, List.append_nil]
      exact spent.change rfl rfl
    · have entry : ((s.take b).setEntry ((s.copy i).addrs NDIRECT) j b).load i ≤ (s.take b).load i :=
        load_setEntry some_
      have logged : ((s.take b).setEntry ((s.copy i).addrs NDIRECT) j b).unlogged b = 0 := by
        refine absorb_unlogged.trans ?_
        split
        · rfl
        · exact take_logged
      exact Nat.add_le_add (b := s.load i + 1) (d := 0) (entry.trans taken) (Nat.le_of_eq logged)
  · rw [if_neg used]
    exact yields_pure ⟨.none ready, Nat.add_le_add_left unlogged_le _⟩

/-- With enough free blocks `bmap` fails only if the log is full. -/
theorem bmap_returns (ready : Ready s) (lt : bn < MAXFILE) (enough : s.cost i bn ≤ s.room) :
    yields (bmap i bn) (fun b s' t => Spent (s.cost i bn) s s' t ∧ s'.load i + s'.unlogged b ≤ s.load i + 1)
      (LogFull (s.load i + 1)) s := by
  by_cases direct : bn < NDIRECT
  · have slot : s.slot i (fileSlot bn) = (s.copy i).addrs bn := by
      rw [fileSlot, if_pos direct, State.slot, slot_direct (Nat.le_of_lt direct)]
    have cost : s.cost i bn = if (s.copy i).addrs bn = 0 then 1 else 0 := by
      rw [State.cost, slot, if_neg (c := NDIRECT ≤ bn ∧ _) fun h => Nat.not_le.2 direct h.1, Nat.add_zero]
    rw [bmap, if_pos direct, cost]
    rw [cost] at enough
    refine yields_mono (loadAddr_returns ready fun empty => ?_) ?_ fun _ _ _ full => full.mono (Nat.le_succ _)
    · rwa [if_pos empty] at enough
    · rintro b s' t (⟨used, rfl, rfl, rfl⟩ | ⟨empty, rfl, -, spent⟩)
      · rw [if_neg used]
        exact ⟨.none ready, Nat.add_le_add_left unlogged_le _⟩
      · have logged : ((s.take b).setAddr i bn b).unlogged b = 0 := take_logged
        rw [if_pos empty, load_setAddr_direct direct, logged]
        exact ⟨spent, load_take⟩
  · have indirect : s.slot i NDIRECT = (s.copy i).addrs NDIRECT := slot_direct (Nat.le_refl _)
    have above : NDIRECT ≤ bn := Nat.not_lt.1 direct
    have slot : s.slot i (fileSlot bn) = if (s.copy i).addrs NDIRECT = 0 then 0
        else word (s.block ((s.copy i).addrs NDIRECT)) (bn - NDIRECT) := by
      rw [fileSlot, if_neg direct, State.slot, slot_above (by omega), Nat.add_sub_add_right]
    rw [bmap, if_neg direct, if_pos (by rw [MAXFILE] at lt; omega)]
    rw [State.cost, slot, indirect] at enough ⊢
    refine yields_then (loadAddr_returns ready fun empty => ?_) (fun _ _ _ full => full.mono (Nat.le_succ _)) ?_
    · rw [if_pos (c := NDIRECT ≤ bn ∧ _) ⟨above, empty⟩] at enough
      omega
    · rintro a s1 t (⟨used, rfl, rfl, rfl⟩ | ⟨empty, rfl, nonzero, spent⟩)
      · rw [if_neg used, if_neg (c := NDIRECT ≤ bn ∧ _) fun h => used h.2, Nat.add_zero] at enough ⊢
        exact loadEntry_returns ready rfl used fun h => by rwa [if_pos h] at enough
      · -- a fresh indirect block is all zero, so the entry is missing too
        rw [if_pos empty, if_pos rfl, if_pos (c := NDIRECT ≤ bn ∧ _) ⟨above, empty⟩] at enough ⊢
        have left := spent.room
        have blank : ((s.take a).setAddr i NDIRECT a).block a = fun _ => 0 := Function.update_self ..
        have new : (((s.take a).setAddr i NDIRECT a).copy i).addrs NDIRECT = a :=
          (slot_direct (Nat.le_refl _)).symm.trans (setAddr_self (Nat.le_refl _))
        have load : ((s.take a).setAddr i NDIRECT a).load i + 1 = (s.take a).load i :=
          load_setAddr_indirect empty nonzero take_logged
        have taken : (s.take a).load i ≤ s.load i + 1 := load_take
        refine yields_mono (loadEntry_returns spent.ready new nonzero fun _ => by omega) ?_ fun _ _ _ full =>
          full.mono (by omega)
        rintro b s' t' ⟨spent', logged⟩
        rw [blank, word_zero, if_pos rfl] at spent'
        exact ⟨spent.append spent', by omega⟩

/-- The blocks of a file that a request touches. -/
def touched (off n : Nat) : Finset Nat := (Finset.range n).image fun k => (off + k) / BSIZE

/-- The blocks `writei` takes for a request: those the file does not have yet, and the indirect block. -/
def State.needs (s : State) (i : Fin NINODE) (off n : Nat) : Nat :=
  ((touched off n).filter fun bn => s.slot i (fileSlot bn) = 0).card +
    if (∃ bn ∈ touched off n, NDIRECT ≤ bn) ∧ s.slot i NDIRECT = 0 then 1 else 0

theorem mem_touched : bn ∈ touched off n ↔ ∃ o, off ≤ o ∧ o < off + n ∧ o / BSIZE = bn := by
  simp only [touched, Finset.mem_image, Finset.mem_range]
  constructor
  · rintro ⟨k, lt, rfl⟩
    exact ⟨off + k, by omega, by omega, rfl⟩
  · rintro ⟨o, low, high, rfl⟩
    exact ⟨o - off, by omega, by rw [Nat.add_sub_cancel' low]⟩

/-- After the first block of a request the rest touches other blocks. -/
theorem touched_rest (off : Nat) (more : 0 < n) : off / BSIZE ∈ touched off n ∧
    touched (off + min n (BSIZE - off % BSIZE)) (n - min n (BSIZE - off % BSIZE)) ⊆ touched off n ∧
    off / BSIZE ∉ touched (off + min n (BSIZE - off % BSIZE)) (n - min n (BSIZE - off % BSIZE)) := by
  refine ⟨mem_touched.2 ⟨off, Nat.le_refl _, by omega, rfl⟩, fun bn mem => ?_, fun mem => ?_⟩
  · obtain ⟨o, low, high, is⟩ := mem_touched.1 mem
    exact mem_touched.2 ⟨o, by omega, by omega, is⟩
  · obtain ⟨o, low, high, is⟩ := mem_touched.1 mem
    simp only [BSIZE] at *
    omega

theorem card_touched_rest (off : Nat) (more : 0 < n) :
    (touched (off + min n (BSIZE - off % BSIZE)) (n - min n (BSIZE - off % BSIZE))).card + 1 ≤ (touched off n).card := by
  obtain ⟨first, sub, new⟩ := touched_rest off more
  rw [← Finset.card_insert_of_notMem new]
  exact Finset.card_le_card (Finset.insert_subset first sub)

theorem cost_le_needs (mem : bn ∈ touched off n) : s.cost i bn ≤ s.needs i off n := by
  refine Nat.add_le_add ?_ ?_
  · split
    · rename_i empty
      exact Finset.card_pos.2 ⟨bn, Finset.mem_filter.2 ⟨mem, empty⟩⟩
    · exact Nat.zero_le _
  · split
    · rename_i missing
      rw [if_pos ⟨⟨bn, mem, missing.1⟩, missing.2⟩]
    · exact Nat.zero_le _

/-- What a request needs is what its first block costs and what the rest needs afterwards. -/
theorem Mapped.needs {s1 s2 : State} (mapped : Mapped i (off / BSIZE) s s1 b)
    (slots : ∀ k, s2.slot i k = s1.slot i k) (more : 0 < n) :
    s.cost i (off / BSIZE) + s2.needs i (off + min n (BSIZE - off % BSIZE)) (n - min n (BSIZE - off % BSIZE)) ≤
      s.needs i off n := by
  obtain ⟨first, sub, new⟩ := touched_rest off more
  simp only [State.needs, State.cost]
  generalize touched (off + min n (BSIZE - off % BSIZE)) (n - min n (BSIZE - off % BSIZE)) = rest at *
  generalize touched off n = all at *
  have kept : rest.filter (fun bn => s2.slot i (fileSlot bn) = 0) = rest.filter fun bn => s.slot i (fileSlot bn) = 0 := by
    refine Finset.filter_congr fun bn mem => ?_
    have ne : fileSlot bn ≠ fileSlot (off / BSIZE) := fun same => new (fileSlot_inj same ▸ mem)
    rw [slots, mapped.slots _ ne (fileSlot_ne _)]
  have blocks : (if s.slot i (fileSlot (off / BSIZE)) = 0 then 1 else 0) +
      (rest.filter fun bn => s.slot i (fileSlot bn) = 0).card ≤ (all.filter fun bn => s.slot i (fileSlot bn) = 0).card := by
    split
    · rename_i empty
      have more : insert (off / BSIZE) (rest.filter fun bn => s.slot i (fileSlot bn) = 0) ⊆
          all.filter fun bn => s.slot i (fileSlot bn) = 0 :=
        Finset.insert_subset (Finset.mem_filter.2 ⟨first, empty⟩) (Finset.filter_subset_filter _ sub)
      have card := Finset.card_le_card more
      rw [Finset.card_insert_of_notMem fun mem => new (Finset.mem_filter.1 mem).1] at card
      omega
    · have card := Finset.card_le_card (Finset.filter_subset_filter (fun bn => s.slot i (fileSlot bn) = 0) sub)
      omega
  have indirect : (if NDIRECT ≤ off / BSIZE ∧ s.slot i NDIRECT = 0 then 1 else 0) +
      (if (∃ bn ∈ rest, NDIRECT ≤ bn) ∧ s2.slot i NDIRECT = 0 then 1 else 0) ≤
      if (∃ bn ∈ all, NDIRECT ≤ bn) ∧ s.slot i NDIRECT = 0 then 1 else 0 := by
    by_cases here : NDIRECT ≤ off / BSIZE
    · -- `bmap` has made sure that there is an indirect block
      have there : s2.slot i NDIRECT ≠ 0 := by
        rw [slots]
        exact indirect_ne_zero here (mapped.slot ▸ mapped.used)
      rw [if_neg (c := (∃ bn ∈ rest, _) ∧ _) fun h => there h.2, Nat.add_zero]
      by_cases empty : s.slot i NDIRECT = 0
      · have whole : (∃ bn ∈ all, NDIRECT ≤ bn) ∧ s.slot i NDIRECT = 0 := ⟨⟨_, first, here⟩, empty⟩
        rw [if_pos whole, if_pos ⟨here, empty⟩]
      · rw [if_neg fun h => empty h.2]
        exact Nat.zero_le _
    · rw [if_neg fun h => here h.1, Nat.zero_add]
      by_cases later : (∃ bn ∈ rest, NDIRECT ≤ bn) ∧ s2.slot i NDIRECT = 0
      · obtain ⟨⟨bn, mem, above⟩, empty⟩ := later
        have before : s.slot i NDIRECT = 0 := by
          by_contra used
          rw [slots, mapped.indirect used] at empty
          exact used empty
        have whole : (∃ bn ∈ all, NDIRECT ≤ bn) ∧ s.slot i NDIRECT = 0 := ⟨⟨bn, sub mem, above⟩, before⟩
        rw [if_pos whole, if_pos ⟨⟨bn, mem, above⟩, empty⟩]
      · rw [if_neg later]
        exact Nat.zero_le _
  rw [kept]
  omega

/-- So does the loop of `writei`. -/
theorem writeiLoop_returns (rounds : Nat) (ready : Ready s) (wf : Wf s)
    (loaded : s.Loaded i) (notDir : (s.copy i).type ≠ .dir) (fits : off + src.length ≤ MAXFILE * BSIZE)
    (enough : s.needs i off src.length ≤ s.room) :
    yields (writeiLoop rounds i off src) (fun _ s' t => Spent (s.needs i off src.length) s s' t ∧
      s'.load i ≤ s.load i + (touched off src.length).card) (LogFull (s.load i + (touched off src.length).card)) s := by
  induction rounds generalizing s off src with
  | zero => exact yields_pure ⟨(Spent.none ready).mono (Nat.zero_le _), Nat.le_add_right _ _⟩
  | succ rounds ih =>
    refine yields_ite (fun empty => ?_) fun more => ?_
    · exact yields_pure ⟨(Spent.none ready).mono (Nat.zero_le _), Nat.le_add_right _ _⟩
    · have some_ : 0 < src.length := List.length_pos_of_ne_nil more
      have lt : off / BSIZE < MAXFILE :=
        Nat.div_lt_of_lt_mul (Nat.mul_comm MAXFILE BSIZE ▸ Nat.lt_of_lt_of_le (by omega) fits)
      have affordable : s.cost i (off / BSIZE) ≤ s.needs i off src.length := cost_le_needs (touched_rest off some_).1
      have places := card_touched_rest off some_
      have fetch := (bmap_returns ready lt (affordable.trans enough)).and_wp (fun _ _ _ done => done.1.fine)
        (bmap_spec wf loaded)
      refine yields_then fetch (fun _ _ _ full => full.mono (by omega)) ?_
      rintro b s1 t ⟨⟨spent, place⟩, mapped⟩
      generalize data : patch (s1.block b) (off % BSIZE) (src.take (min src.length (BSIZE - off % BSIZE))) = new
      obtain ⟨wf2, steady2, slots2⟩ := mapped.write (g := fun _ => new) loaded lt fun dir => absurd dir notDir
      refine yields_update_bind ?_
      rw [data]
      refine yields_then (logWrite_returns spent.ready.trans) (fun _ _ _ full => ?_) ?_
      · exact full.mono ((length_le_load (s := s1) (i := i)).trans (by omega))
      rintro _ _ _ ⟨rfl, rfl⟩
      have patched : Spent _ s (s1.setData b new) t := spent.change rfl rfl
      have load : (s1.setData b new).load i ≤ s1.load i + s1.unlogged b := load_absorb
      have step := mapped.needs slots2 some_
      have left := patched.room
      have rest : yields (writeiLoop rounds i (off + min src.length (BSIZE - off % BSIZE))
          (src.drop (min src.length (BSIZE - off % BSIZE)))) _ _ (s1.setData b new) :=
        ih patched.ready wf2 (steady2.loaded.2 loaded) (by rwa [steady2.type]) (by rw [List.length_drop]; omega)
          (by rw [List.length_drop]; omega)
      rw [List.length_drop] at rest
      refine yields_mono rest ?_ fun _ _ _ full => full.mono (by omega)
      rintro _ s' t'' ⟨spent', load'⟩
      exact ⟨(patched.append spent').mono step, by omega⟩

end

end Xv6.Fs
