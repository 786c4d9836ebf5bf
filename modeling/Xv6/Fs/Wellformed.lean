import Xv6.Fs.Dir

/-!
# Well-formed file system states

An inode is represented more than once: by its disk inode, and by a valid entry of
the cache while one is in use, which may already hold addresses that are not on disk
yet. A block is referred to if some representation refers to it. In a well-formed
state no block is referred to from two places, all of them are marked in the bitmap
and lie in the data area, no inode has a hole except a directory in its last block,
and the entries of directories hold inode numbers.
-/

namespace Xv6.Fs

open Xv6.Lib Xv6.Lib.Eff

/-! ## Slots -/

/-- The places of an inode that hold block addresses: the direct addresses, the address of the indirect block,
and the entries of that block. -/
def Dinode.slot (d : Dinode) (block : Nat → Nat → Byte) (k : Nat) : Nat :=
  if k ≤ NDIRECT then d.addrs k
  else if d.addrs NDIRECT = 0 then 0
  else word (block (d.addrs NDIRECT)) (k - (NDIRECT + 1))

/-- Number of slots. -/
def NSLOT : Nat := NDIRECT + 1 + NINDIRECT

/-- The slot of block `bn` of a file. -/
def fileSlot (bn : Nat) : Nat := if bn < NDIRECT then bn else bn + 1

theorem fileSlot_ne (bn : Nat) : fileSlot bn ≠ NDIRECT := by
  unfold fileSlot
  split <;> omega

theorem fileSlot_lt {bn : Nat} (h : bn < MAXFILE) : fileSlot bn < NSLOT := by
  simp only [fileSlot, NSLOT, MAXFILE] at *
  split <;> omega

theorem fileSlot_inj {bn bn' : Nat} (h : fileSlot bn = fileSlot bn') : bn = bn' := by
  simp only [fileSlot] at h
  split at h <;> split at h <;> omega

section
variable {d : Dinode} {block : Nat → Nat → Byte} {a b j k v : Nat} {data : Nat → Byte}

theorem slot_direct (h : k ≤ NDIRECT) : d.slot block k = d.addrs k := by simp [Dinode.slot, h]

theorem slot_above (h : NDIRECT < k) : d.slot block k =
    if d.addrs NDIRECT = 0 then 0 else word (block (d.addrs NDIRECT)) (k - (NDIRECT + 1)) :=
  if_neg (by omega)

theorem slot_entry (h : d.addrs NDIRECT ≠ 0) :
    d.slot block (NDIRECT + 1 + j) = word (block (d.addrs NDIRECT)) j := by
  simp only [Dinode.slot, h, if_false]
  rw [if_neg (by omega), Nat.add_sub_cancel_left]

/-- Slots do not depend on blocks other than the indirect one. -/
theorem slot_update_of_ne (h : d.addrs NDIRECT ≠ a) :
    d.slot (Function.update block a data) k = d.slot block k := by
  simp only [Dinode.slot, Function.update_of_ne h]

theorem word_zero : word (fun _ => 0) j = 0 := rfl

theorem word_setWord (small : v < 2 ^ 32) : word (setWord data j v) j = v := by
  have at_ : ∀ r < 4, (setWord data j v (4 * j + r)).toNat = v / 256 ^ r % 256 := by
    intro r hr
    have quot : (4 * j + r) / 4 = j := by omega
    have rem : (4 * j + r) % 4 = r := by omega
    rw [setWord, if_pos quot, rem, BitVec.toNat_ofNat]
  have at0 := at_ 0 (by omega)
  have at1 := at_ 1 (by omega)
  have at2 := at_ 2 (by omega)
  have at3 := at_ 3 (by omega)
  norm_num at at0 at1 at2 at3
  rw [word, at0, at1, at2, at3]
  omega

theorem word_setWord_of_ne (h : k ≠ j) : word (setWord data j v) k = word data k := by
  have at_ : ∀ r < 4, setWord data j v (4 * k + r) = data (4 * k + r) := by
    intro r hr
    exact if_neg (by omega)
  have at0 := at_ 0 (by omega)
  rw [Nat.add_zero] at at0
  simp only [word, at0, at_ 1 (by omega), at_ 2 (by omega), at_ 3 (by omega)]

end

/-! ## Well-formedness -/

/-- `de.inum` of the entry at byte `start` of a directory block. -/
def half (data : Nat → Byte) (start : Nat) : Nat := (data start).toNat + 256 * (data (start + 1)).toNat

/-- A block of directory entries, all of which hold inode numbers. -/
def DirBlock (data : Nat → Byte) : Prop := ∀ o < BSIZE / DIRENT, half data (o * DIRENT) < sb.ninodes

theorem DirBlock.zero : DirBlock fun _ => 0 := by
  intro o _
  simp [half, sb]

/-- What one representation of an inode satisfies. -/
structure Sound (block : Nat → Nat → Byte) (d : Dinode) : Prop where
  fits : d.size ≤ MAXFILE * BSIZE
  filled : ∀ bn, bn * BSIZE < d.size →
    d.slot block (fileSlot bn) ≠ 0 ∨ d.type = .dir ∧ (bn + 1) * BSIZE = d.size
  whole : d.type = .dir → DIRENT ∣ d.size
  named : d.type = .dir → ∀ k < NSLOT, k ≠ NDIRECT → d.slot block k ≠ 0 → DirBlock (block (d.slot block k))

namespace State

/-- Entry `i` of the cache is in use. -/
def Live (s : State) (i : Fin NINODE) : Prop := 0 < (s.icache i).ref

/-- Entry `i` is in use and holds its inode. -/
def Loaded (s : State) (i : Fin NINODE) : Prop := s.Live i ∧ (s.icache i).valid = true

/-- The copy of the disk inode in entry `i`. -/
def copy (s : State) (i : Fin NINODE) : Dinode := (s.icache i).copy

def inum (s : State) (i : Fin NINODE) : Nat := (s.icache i).inum

/-- `d` represents inode `n`. -/
def Copy (s : State) (n : Nat) (d : Dinode) : Prop :=
  d = s.dinode n ∨ ∃ i, s.Loaded i ∧ s.inum i = n ∧ d = s.copy i

/-- Slot `k` of inode `n` refers to block `b`. -/
def Refers (s : State) (n k b : Nat) : Prop :=
  b ≠ 0 ∧ k < NSLOT ∧ ∃ d, s.Copy n d ∧ d.slot s.block k = b

/-- Slot `k` of the inode in entry `i`. -/
def slot (s : State) (i : Fin NINODE) (k : Nat) : Nat := (s.copy i).slot s.block k

/-- The inode in entry `i` has no hole. -/
def Full (s : State) (i : Fin NINODE) : Prop := ∀ bn, bn * BSIZE < (s.copy i).size → s.slot i (fileSlot bn) ≠ 0

end State

/-- A well-formed state. -/
structure Wf (s : State) : Prop where
  unique : ∀ i j, s.Live i → s.Live j → s.inum i = s.inum j → i = j
  inums : ∀ i, s.Live i → 0 < s.inum i ∧ s.inum i < sb.ninodes
  coherent : ∀ i, s.Loaded i →
    (s.copy i).type = (s.dinode (s.inum i)).type ∧ (s.copy i).nlink = (s.dinode (s.inum i)).nlink
  typed : ∀ i, s.Loaded i → (s.copy i).type ≠ .free
  once : ∀ n k b n' k', s.Refers n k b → s.Refers n' k' b → n = n' ∧ k = k'
  data : ∀ n k b, s.Refers n k b → DataBlock b ∧ s.bitmap b = true
  sound : ∀ n d, s.Copy n d → Sound s.block d
  marked : ∀ b < firstData, s.bitmap b = true

/-! ## What the steps of the code keep -/

section
variable {s s' : State} {i : Fin NINODE} {a b j k n : Nat}

theorem State.Refers.of_slot {d : Dinode} (rep : s.Copy n d) (lt : k < NSLOT) (used : d.slot s.block k ≠ 0) :
    s.Refers n k (d.slot s.block k) := ⟨used, lt, d, rep, rfl⟩

theorem State.Loaded.rep (loaded : s.Loaded i) : s.Copy (s.inum i) (s.copy i) := Or.inr ⟨i, loaded, rfl, rfl⟩

theorem DataBlock.ne_zero (data : DataBlock b) : b ≠ 0 := by
  have := data.1
  simp only [firstData, sb, IPB, BSIZE, BPB] at this
  omega

theorem NDIRECT_lt_NSLOT : NDIRECT < NSLOT := by decide

/-- A block that is free in the bitmap is referred to from nowhere. -/
theorem Wf.unreferenced (wf : Wf s) (free : s.bitmap b = false) : ∀ n k, ¬s.Refers n k b := by
  intro n k ref
  have := (wf.data n k b ref).2
  simp [free] at this

/-- Slot `k0` of inode `n0` may come to refer to the block `b0`, which nothing referred to and which is all zero;
the blocks that other slots refer to stay as they are. -/
theorem Wf.grow (wf : Wf s) (n0 k0 b0 : Nat) (dinode : s'.dinode = s.dinode)
    (entries : ∀ i, (s'.icache i).ref = (s.icache i).ref ∧ s'.inum i = s.inum i ∧
      (s'.icache i).valid = (s.icache i).valid ∧ (s'.copy i).type = (s.copy i).type ∧
      (s'.copy i).nlink = (s.copy i).nlink)
    (bits : ∀ b, s.bitmap b = true → s'.bitmap b = true)
    (fresh : ∀ n k, ¬s.Refers n k b0) (data : DataBlock b0) (bit : s'.bitmap b0 = true)
    (blank : s'.block b0 = fun _ => 0)
    (contents : ∀ n k b, s.Refers n k b → k ≠ NDIRECT → s'.block b = s.block b)
    (reps : ∀ n d', s'.Copy n d' → ∃ d, s.Copy n d ∧ d'.type = d.type ∧ d'.size = d.size ∧
      ∀ k, d'.slot s'.block k = d.slot s.block k ∨
        n = n0 ∧ k = k0 ∧ d.slot s.block k = 0 ∧ d'.slot s'.block k = b0) : Wf s' := by
  have live : ∀ i, s'.Live i ↔ s.Live i := by
    intro i
    simp only [State.Live, (entries i).1]
  have loaded : ∀ i, s'.Loaded i ↔ s.Loaded i := by
    intro i
    simp only [State.Loaded, live i, (entries i).2.2.1]
  have refers : ∀ n k b, s'.Refers n k b → s.Refers n k b ∨ n = n0 ∧ k = k0 ∧ b = b0 := by
    rintro n k b ⟨used, lt, d', rep, rfl⟩
    obtain ⟨d, old, _, _, slots⟩ := reps n d' rep
    rcases slots k with same | ⟨hn, hk, _, hb⟩
    · exact Or.inl ⟨used, lt, d, old, same.symm⟩
    · exact Or.inr ⟨hn, hk, hb⟩
  refine ⟨?_, ?_, ?_, ?_, ?_, ?_, ?_, ?_⟩
  · intro i j hi hj same
    rw [(entries i).2.1, (entries j).2.1] at same
    exact wf.unique i j ((live i).1 hi) ((live j).1 hj) same
  · intro i hi
    rw [(entries i).2.1]
    exact wf.inums i ((live i).1 hi)
  · intro i hi
    obtain ⟨_, sameInum, _, sameType, sameNlink⟩ := entries i
    rw [sameType, sameNlink, sameInum, dinode]
    exact wf.coherent i ((loaded i).1 hi)
  · intro i hi
    rw [(entries i).2.2.2.1]
    exact wf.typed i ((loaded i).1 hi)
  · intro n k b n' k' ref ref'
    rcases refers n k b ref with old | ⟨rfl, rfl, rfl⟩ <;> rcases refers n' k' _ ref' with old' | ⟨rfl, rfl, same⟩
    · exact wf.once n k b n' k' old old'
    · exact absurd (same ▸ old) (fresh n k)
    · exact absurd old' (fresh n' k')
    · exact ⟨rfl, rfl⟩
  · intro n k b ref
    rcases refers n k b ref with old | ⟨_, _, rfl⟩
    · exact ⟨(wf.data n k b old).1, bits b (wf.data n k b old).2⟩
    · exact ⟨data, bit⟩
  · intro n d' rep
    obtain ⟨d, old, sameType, sameSize, slots⟩ := reps n d' rep
    have sound := wf.sound n d old
    refine ⟨sameSize ▸ sound.fits, ?_, ?_, ?_⟩
    · intro bn inside
      rw [sameSize] at inside ⊢
      rw [sameType]
      rcases slots (fileSlot bn) with same | ⟨_, _, _, new⟩
      · rw [same]
        exact sound.filled bn inside
      · exact Or.inl (new ▸ data.ne_zero)
    · rw [sameType, sameSize]
      exact sound.whole
    · intro isDir k lt notInd used
      rw [sameType] at isDir
      rcases slots k with same | ⟨_, _, _, new⟩
      · rw [same] at used ⊢
        rw [contents n k _ (.of_slot old lt used) notInd]
        exact sound.named isDir k lt notInd used
      · rw [new, blank]
        exact DirBlock.zero
  · intro b lt
    exact bits b (wf.marked b lt)

end

end Xv6.Fs
