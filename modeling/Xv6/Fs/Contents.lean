import Xv6.Fs.Allocation
import Xv6.Fs.WriteSpec

/-!
# The contents of inodes refine byte arrays

On a file system without holes, and as long as there are free blocks and places in
the log, `readi` and `writei` do to the contents of an inode what reading and writing do to a list of
bytes. They do not ask whether an inode is a directory; so what is known of regular
files applies after every directory has been declared one.
-/

namespace Xv6.Fs

open Xv6.Lib Xv6.Lib.Eff

/-! ## Directories taken as files -/

/-- A directory becomes a regular file. -/
def Dinode.plain (d : Dinode) : Dinode := { d with type := if d.type = .dir then .file else d.type }

def Inode.plain (ip : Inode) : Inode := { ip with copy := ip.copy.plain }

def State.plain (s : State) : State :=
  { s with dinode := fun n => (s.dinode n).plain, icache := fun i => (s.icache i).plain }

section
variable {s s' : State} {i : Fin NINODE} {b bn k n off : Nat} {src : List Byte}

theorem plain_dev {d : Dinode} : d.plain.type = .dev ↔ d.type = .dev := by
  unfold Dinode.plain
  cases d.type <;> simp

theorem plain_free {d : Dinode} : d.plain.type = .free ↔ d.type = .free := by
  unfold Dinode.plain
  cases d.type <;> simp

theorem plain_not_dir (d : Dinode) : d.plain.type ≠ .dir := by
  unfold Dinode.plain
  cases d.type <;> simp

theorem plain_setInode (ip : Inode) : s.plain.setInode i ip.plain = (s.setInode i ip).plain := by
  have entries : Function.update s.plain.icache i ip.plain = fun j => (Function.update s.icache i ip j).plain :=
    (Function.comp_update Inode.plain s.icache i ip).symm
  rw [State.setInode, entries]
  rfl

theorem plain_setDinode (d : Dinode) : s.plain.setDinode n d.plain = (s.setDinode n d).plain := by
  have inodes : Function.update s.plain.dinode n d.plain = fun m => (Function.update s.dinode n d m).plain :=
    (Function.comp_update Dinode.plain s.dinode n d).symm
  rw [State.setDinode, inodes]
  rfl

end

/-! ## What reading and writing an inode does not see -/

/-- A change of the state that reading and writing the inode in entry `i` does not see, and does not undo. -/
structure Blind (i : Fin NINODE) (g : State → State) : Prop where
  bitmap : ∀ s, (g s).bitmap = s.bitmap
  block : ∀ s, (g s).block = s.block
  inTrans : ∀ s, (g s).inTrans = s.inTrans
  lh : ∀ s, (g s).lh = s.lh
  inum : ∀ s, ((g s).icache i).inum = (s.icache i).inum
  addrs : ∀ s, ((g s).icache i).copy.addrs = (s.icache i).copy.addrs
  size : ∀ s, ((g s).icache i).copy.size = (s.icache i).copy.size
  dev : ∀ s, ((g s).icache i).copy.type = .dev ↔ (s.icache i).copy.type = .dev
  major : ∀ s, ((g s).icache i).copy.major = (s.icache i).copy.major
  setBit : ∀ s b v, (g s).setBit b v = g (s.setBit b v)
  setBlock : ∀ s b data, (g s).setBlock b data = g (s.setBlock b data)
  absorb : ∀ s b, (g s).absorb b = g (s.absorb b)
  setCopy : ∀ s (f : (Nat → Nat) → Nat → Nat) (h : Nat → Nat),
    (g s).setInode i { (g s).icache i with
      copy := { ((g s).icache i).copy with addrs := f ((g s).icache i).copy.addrs, size := h ((g s).icache i).copy.size } } =
    g (s.setInode i { s.icache i with
      copy := { (s.icache i).copy with addrs := f (s.icache i).copy.addrs, size := h (s.icache i).copy.size } })
  store : ∀ s, (g s).setDinode ((g s).icache i).inum ((g s).icache i).copy = g (s.setDinode (s.icache i).inum (s.icache i).copy)

theorem blind_plain (i : Fin NINODE) : Blind i State.plain where
  bitmap _ := rfl
  block _ := rfl
  inTrans _ := rfl
  lh _ := rfl
  inum _ := rfl
  addrs _ := rfl
  size _ := rfl
  dev _ := plain_dev
  major _ := rfl
  setBit _ _ _ := rfl
  setBlock _ _ _ := rfl
  absorb _ _ := rfl
  setCopy s f h := plain_setInode { s.icache i with
    copy := { (s.icache i).copy with addrs := f (s.icache i).copy.addrs, size := h (s.icache i).copy.size } }
  store s := plain_setDinode (s.icache i).copy

namespace Blind
variable {g : State → State} {i : Fin NINODE} {b bn k n off : Nat} {src : List Byte}

section
variable (blind : Blind i g)
include blind

theorem respects_logWrite : Respects g (logWrite b) :=
  respects_reads (fun s => by simp only [blind.inTrans, blind.lh]) fun _ =>
    respects_ite respects_fail (respects_ite (respects_update fun s => blind.absorb s b) respects_fail)

theorem respects_balloc : Respects g balloc := by
  unfold balloc
  refine respects_reads (fun s => by simp only [blind.bitmap]) fun s => ?_
  split
  · exact respects_fail
  · refine respects_bind (respects_update fun s => blind.setBit s _ _) fun _ => respects_bind blind.respects_logWrite fun _ => ?_
    refine respects_bind (respects_bind (respects_update fun s => blind.setBlock s _ _) fun _ => blind.respects_logWrite) fun _ => ?_
    exact respects_bind respects_emit fun _ => respects_pure

theorem respects_iupdate : Respects g (iupdate i) := by
  have order : iupdate i = (do
      update fun s => s.setDinode (s.icache i).inum (s.icache i).copy
      let s ← state
      logWrite (IBLOCK (s.icache i).inum)) := rfl
  rw [order]
  refine respects_bind (respects_update blind.store) fun _ => respects_reads (fun s => ?_) fun _ => blind.respects_logWrite
  simp only [blind.inum]

theorem respects_loadAddr : Respects g (loadAddr i k) := by
  refine respects_reads (fun s => by simp only [blind.addrs]) fun s => respects_ite ?_ respects_pure
  refine respects_bind blind.respects_balloc fun b => respects_bind (respects_update fun s => ?_) fun _ => respects_pure
  exact blind.setCopy s (fun addrs => Function.update addrs k b) id

theorem respects_loadEntry {a j : Nat} : Respects g (loadEntry a j) := by
  refine respects_reads (fun s => by simp only [blind.block]) fun s => respects_ite ?_ respects_pure
  refine respects_bind blind.respects_balloc fun b => respects_bind (respects_update fun s => ?_) fun _ => ?_
  · rw [blind.block, blind.setBlock]
  · exact respects_bind blind.respects_logWrite fun _ => respects_pure

theorem respects_bmap : Respects g (bmap i bn) :=
  respects_ite blind.respects_loadAddr
    (respects_ite (respects_bind blind.respects_loadAddr fun _ => blind.respects_loadEntry) respects_fail)

theorem respects_writeiLoop (rounds : Nat) : Respects g (writeiLoop rounds i off src) := by
  induction rounds generalizing off src with
  | zero => exact respects_pure
  | succ rounds ih =>
    refine respects_ite respects_pure (respects_bind blind.respects_bmap fun b => ?_)
    refine respects_bind (respects_update fun s => ?_) fun _ => respects_bind blind.respects_logWrite fun _ => ih
    rw [blind.block, blind.setBlock]

theorem respects_writei : Respects g (writei i off src) := by
  unfold writei
  refine respects_reads (fun s => by simp only [blind.dev, blind.size, blind.major]) fun s => ?_
  refine respects_ite (respects_ite respects_pure respects_pure) (respects_ite respects_pure (respects_ite respects_pure ?_))
  refine respects_bind (blind.respects_writeiLoop _) fun _ => respects_bind (respects_ite ?_ respects_pure) fun _ => respects_pure
  refine respects_bind (respects_update fun s => ?_) fun _ => blind.respects_iupdate
  exact blind.setCopy s id fun _ => off + src.length

end

end Blind

/-! ## Contents -/

/-- The bytes of the file that an inode describes. -/
def Dinode.contents (d : Dinode) (block : Nat → Nat → Byte) : List Byte :=
  (List.range d.size).map fun o => block (d.slot block (fileSlot (o / BSIZE))) (o % BSIZE)

def State.contents (s : State) (i : Fin NINODE) : List Byte := (s.copy i).contents s.block

/-- A file system in which every block below the size of an inode is there, directories included, and no block has two
places. -/
def HoleFree (s : State) : Prop := Wf s.plain

/-- The bytes from `off` on replaced by `src`, or `src` appended. -/
def splice (old : List Byte) (off : Nat) (src : List Byte) : List Byte := old.take off ++ src ++ old.drop (off + src.length)

section
variable {s s' s'' : State} {i : Fin NINODE} {b bn k n off : Nat} {src : List Byte} {d : Dinode}

theorem length_contents : (s.contents i).length = (s.copy i).size := by simp [State.contents, Dinode.contents]

theorem getElem_contents {o : Nat} (h : o < (s.contents i).length) : (s.contents i)[o] = s.byte i o := by
  simp [State.contents, Dinode.contents, State.byte, State.slot]

theorem HoleFree.full (hole : HoleFree s) (loaded : s.Loaded i) : s.Full i :=
  Wf.full_of_not_dir (s := s.plain) hole loaded (plain_not_dir _)

theorem HoleFree.fits (hole : HoleFree s) (loaded : s.Loaded i) : (s.copy i).size ≤ MAXFILE * BSIZE :=
  (Wf.sound_of (s := s.plain) hole loaded).fits

/-! ## Reading -/

theorem loadAddr_present (used : (s.copy i).addrs k ≠ 0) :
    succeeds (loadAddr i k) (fun r s' t => r = (s.copy i).addrs k ∧ s' = s ∧ t = []) s := by
  refine succeeds_state_bind ?_
  rw [if_neg (show (s.icache i).copy.addrs k ≠ 0 from used)]
  exact succeeds_pure ⟨rfl, rfl, rfl⟩

/-- A block that is there already is found. -/
theorem bmap_present (lt : bn < MAXFILE) (used : s.slot i (fileSlot bn) ≠ 0) :
    succeeds (bmap i bn) (fun r s' t => r = s.slot i (fileSlot bn) ∧ s' = s ∧ t = []) s := by
  unfold bmap
  by_cases direct : bn < NDIRECT
  · rw [if_pos direct]
    rw [fileSlot, if_pos direct, State.slot, slot_direct (Nat.le_of_lt direct)] at used ⊢
    exact loadAddr_present used
  · have entry : bn - NDIRECT < NINDIRECT := by
      unfold MAXFILE at lt
      omega
    have indirect := indirect_ne_zero (Nat.not_lt.1 direct) used
    rw [State.slot, slot_direct (Nat.le_refl _)] at indirect
    have place : fileSlot bn = NDIRECT + 1 + (bn - NDIRECT) := by
      rw [fileSlot, if_neg direct]
      omega
    rw [if_neg direct, if_pos entry]
    rw [place, State.slot, slot_entry indirect] at used ⊢
    refine succeeds_then (loadAddr_present indirect) ?_
    rintro _ _ _ ⟨rfl, rfl, rfl⟩
    refine succeeds_state_bind ?_
    rw [if_neg used]
    exact succeeds_pure ⟨rfl, rfl, rfl⟩

theorem readiLoop_bytes (rounds : Nat) (fits : (s.copy i).size ≤ MAXFILE * BSIZE) (full : s.Full i) (enough : n ≤ rounds)
    (inside : off + n ≤ (s.copy i).size) : succeeds (readiLoop rounds i off n)
      (fun r s' t => r = (List.range n).map (fun k => s.byte i (off + k)) ∧ s' = s ∧ t = []) s := by
  induction rounds generalizing off n with
  | zero =>
    obtain rfl : n = 0 := by omega
    exact succeeds_pure ⟨rfl, rfl, rfl⟩
  | succ rounds ih =>
    refine succeeds_ite (fun zero => ?_) fun more => ?_
    · rw [zero]
      exact succeeds_pure ⟨rfl, rfl, rfl⟩
    · have lt : off / BSIZE < MAXFILE := Nat.div_lt_of_lt_mul (by rw [Nat.mul_comm]; omega)
      refine succeeds_then (bmap_present lt (full _ (mul_BSIZE_lt (by omega)))) ?_
      rintro _ s _ ⟨rfl, rfl, rfl⟩
      refine succeeds_state_bind (succeeds_then (ih (by unfold BSIZE; omega) (by omega)) ?_)
      rintro _ s _ ⟨rfl, rfl, rfl⟩
      refine succeeds_pure ⟨?_, rfl, rfl⟩
      have split := List.range_add (n := min n (BSIZE - off % BSIZE)) (m := n - min n (BSIZE - off % BSIZE))
      rw [show min n (BSIZE - off % BSIZE) + (n - min n (BSIZE - off % BSIZE)) = n by omega] at split
      rw [split, List.map_append, List.map_map]
      congr 1
      · refine List.map_congr_left fun k member => ?_
        have lt := List.mem_range.1 member
        have place : (off + k) / BSIZE = off / BSIZE ∧ (off + k) % BSIZE = off % BSIZE + k := by
          unfold BSIZE at *
          omega
        rw [State.byte, place.1, place.2]
      · refine List.map_congr_left fun k _ => ?_
        simp only [Function.comp, Nat.add_assoc]

theorem readi_bytes (fits : (s.copy i).size ≤ MAXFILE * BSIZE) (full : s.Full i) (notDev : (s.copy i).type ≠ .dev) :
    succeeds (readi i off n) (fun r s' t => s' = s ∧ t = [] ∧
      r = if off > (s.contents i).length ∨ 2 ^ 32 ≤ off + n then none else some (((s.contents i).drop off).take n)) s := by
  unfold readi
  refine succeeds_state_bind ?_
  simp only [length_contents]
  rw [if_neg (show (s.icache i).copy.type ≠ .dev from notDev)]
  refine succeeds_ite (fun bad => succeeds_pure ⟨rfl, rfl, (if_pos bad).symm⟩) fun good => ?_
  have above : off ≤ (s.copy i).size := Nat.not_lt.1 fun h => good (.inl h)
  have amount : (if off + n > (s.copy i).size then (s.copy i).size - off else n) = min n ((s.copy i).size - off) := by
    split <;> omega
  show succeeds (do
    let data ← readiLoop (if off + n > (s.copy i).size then (s.copy i).size - off else n) i off
      (if off + n > (s.copy i).size then (s.copy i).size - off else n)
    pure (some data)) _ s
  rw [amount]
  refine succeeds_then (readiLoop_bytes _ fits full le_rfl (by omega)) ?_
  rintro _ s _ ⟨rfl, rfl, rfl⟩
  refine succeeds_pure ⟨rfl, rfl, ?_⟩
  rw [if_neg (show ¬ (off > (s.copy i).size ∨ 2 ^ 32 ≤ off + n) from good)]
  refine congrArg some (List.ext_getElem ?_ fun k h h' => ?_)
  · simp [length_contents]
  · rw [List.getElem_map, List.getElem_range, List.getElem_take, List.getElem_drop, getElem_contents]

/-! ## Writing -/

/-- The request is turned down. -/
def Rejected (size off n : Nat) : Prop := off > size ∨ 2 ^ 32 ≤ off + n ∨ off + n > MAXFILE * BSIZE

instance (size off n : Nat) : Decidable (Rejected size off n) := inferInstanceAs (Decidable (_ ∨ _))

theorem writei_rejected (notDev : (s.copy i).type ≠ .dev) (rejected : Rejected (s.copy i).size off src.length) :
    succeeds (writei i off src) (fun r s' t => r = none ∧ s' = s ∧ t = []) s := by
  unfold writei
  refine succeeds_state_bind ?_
  rw [if_neg (show (s.icache i).copy.type ≠ .dev from notDev)]
  refine succeeds_ite (fun _ => succeeds_pure ⟨rfl, rfl, rfl⟩) fun near => succeeds_ite (fun _ => succeeds_pure ⟨rfl, rfl, rfl⟩) fun short => ?_
  exact absurd rejected (by
    rintro (h | h | h)
    · exact near (.inl h)
    · exact near (.inr h)
    · exact short h)

/-- There are blocks enough for the request. -/
theorem writei_returns (wf : Wf s) (ready : Ready s) (loaded : s.Loaded i)
    (notDir : (s.copy i).type ≠ .dir) (notDev : (s.copy i).type ≠ .dev) (enough : s.needs i off src.length ≤ s.room) :
    yields (writei i off src) (fun _ s' t => Spent (s.needs i off src.length) s s' t)
      (LogFull (s.lh.length + (touched off src.length).card + 3)) s := by
  unfold writei
  refine yields_state_bind ?_
  rw [if_neg (show (s.icache i).copy.type ≠ .dev from notDev)]
  have nothing : Spent (s.needs i off src.length) s s [] := (Spent.none ready).mono (Nat.zero_le _)
  have few : s.load i ≤ s.lh.length + 3 := load_le
  refine yields_ite (fun _ => yields_pure nothing) fun _ => yields_ite (fun _ => yields_pure nothing) fun short => ?_
  refine yields_then (writeiLoop_returns _ ready wf loaded notDir (Nat.not_lt.1 short) enough)
    (fun _ _ _ full => full.mono (by omega)) ?_
  rintro _ s1 t ⟨spent, load⟩
  have places : s1.lh.length ≤ s1.load i := length_le_load
  refine yields_then (Q := fun _ s' t' => Spent (s.needs i off src.length) s s' (t ++ t'))
    (F := LogFull (s.lh.length + (touched off src.length).card + 3)) (yields_ite (fun _ => ?_) fun _ => ?_)
    (fun _ _ _ full => full) ?_
  · unfold setCopy iupdate
    refine yields_update_bind (yields_state_bind (yields_update_bind ?_))
    refine yields_mono (logWrite_returns spent.ready.trans) ?_ fun _ _ _ full => full.mono (places.trans (by omega))
    rintro _ _ _ ⟨rfl, rfl⟩
    rw [List.append_nil]
    exact spent.change rfl rfl
  · refine yields_pure ?_
    rwa [List.append_nil]
  · intro _ s' t' spent'
    refine yields_pure ?_
    rwa [List.append_nil]

/-- What `writei` leaves behind when it accepts a request: the contents of one inode are changed. -/
structure Writes (i : Fin NINODE) (off : Nat) (src : List Byte) (s s' : State) : Prop where
  hole : HoleFree s'
  ready : Ready s'
  only : Local i s s'
  contents : s'.contents i = splice (s.contents i) off src
  apart : ∀ n d, s.Copy n d → n ≠ s.inum i → s'.Copy n d ∧ d.contents s'.block = d.contents s.block

theorem slot_congr {block block' : Nat → Nat → Byte}
    (same : d.addrs NDIRECT ≠ 0 → block' (d.addrs NDIRECT) = block (d.addrs NDIRECT)) : d.slot block' k = d.slot block k := by
  rcases Nat.lt_or_ge NDIRECT k with above | le
  · rw [slot_above above, slot_above above]
    split
    · rfl
    · rename_i used
      rw [same used]
  · rw [slot_direct le, slot_direct le]

/-- The contents of an inode whose blocks are as they were. -/
theorem contents_congr {block block' : Nat → Nat → Byte} (sound : Sound block d.plain)
    (same : ∀ k < NSLOT, d.slot block k ≠ 0 → block' (d.slot block k) = block (d.slot block k)) :
    d.contents block' = d.contents block := by
  have slots : ∀ k, d.slot block' k = d.slot block k := fun k => slot_congr fun used => by
    have indirect := same NDIRECT NDIRECT_lt_NSLOT
    rw [slot_direct (Nat.le_refl _)] at indirect
    exact indirect used
  refine List.map_congr_left fun o member => ?_
  have lt : o < d.size := List.mem_range.1 member
  have used : d.slot block (fileSlot (o / BSIZE)) ≠ 0 :=
    (sound.filled (o / BSIZE) (mul_BSIZE_lt lt)).resolve_right fun dir => plain_not_dir d dir.1
  have fits : o / BSIZE < MAXFILE := by
    have fits : d.size ≤ MAXFILE * BSIZE := sound.fits
    exact Nat.div_lt_of_lt_mul (by rw [Nat.mul_comm]; omega)
  rw [slots, same _ (fileSlot_lt fits) used]

theorem length_splice {old : List Byte} (above : off ≤ old.length) :
    (splice old off src).length = max old.length (off + src.length) := by
  simp only [splice, List.length_append, List.length_take, List.length_drop]
  omega

theorem getElem_splice {old : List Byte} {o : Nat} (above : off ≤ old.length) (h : o < (splice old off src).length) :
    (splice old off src)[o] = if off ≤ o ∧ o < off + src.length then src.getD (o - off) 0 else old.getD o 0 := by
  have length : (splice old off src).length = max old.length (off + src.length) := length_splice above
  have first : (old.take off).length = off := by rw [List.length_take, Nat.min_eq_left above]
  have both : (old.take off ++ src).length = off + src.length := by rw [List.length_append, first]
  simp only [splice]
  rcases Nat.lt_or_ge o off with before | after
  · rw [if_neg (by omega), List.getElem_append_left (by omega), List.getElem_append_left (by omega), List.getElem_take,
      List.getD_eq_getElem _ _ (by omega)]
  · rcases Nat.lt_or_ge o (off + src.length) with inside | behind
    · rw [if_pos ⟨after, inside⟩, List.getElem_append_left (by omega), List.getElem_append_right (by omega)]
      simp only [first]
      rw [List.getD_eq_getElem _ _ (by omega)]
    · rw [if_neg (by omega), List.getElem_append_right (by omega), List.getElem_drop]
      simp only [both, Nat.add_sub_cancel' behind]
      rw [List.getD_eq_getElem _ _ (by omega)]

/-- What is stored is the list of bytes that one expects. -/
theorem Stored.contents (stored : Stored i off src s.plain s'.plain)
    (above : off ≤ (s.copy i).size) : s'.contents i = splice (s.contents i) off src := by
  have size : (s'.copy i).size = max (s.copy i).size (off + src.length) := stored.size
  have above' : off ≤ (s.contents i).length := by rwa [length_contents]
  refine List.ext_getElem (by rw [length_splice above', length_contents, length_contents, size]) fun o h h' => ?_
  rw [getElem_contents, getElem_splice above']
  rw [length_contents] at h
  split
  · rename_i within
    have inside : s'.byte i (off + (o - off)) = src.getD (o - off) 0 := stored.inside (o - off) (by omega)
    rwa [Nat.add_sub_cancel' within.1] at inside
  · rename_i outside
    have below : o < (s.copy i).size := by omega
    have beside : s'.byte i o = s.byte i o := stored.beside o below outside
    rw [beside, List.getD_eq_getElem _ _ (by rwa [length_contents]), getElem_contents]

/-- The representations of an inode when directories are taken as files. -/
theorem copy_plain (rep : s.Copy n d) : s.plain.Copy n d.plain := by
  rcases rep with rfl | ⟨j, loaded, rfl, rfl⟩
  · exact .inl rfl
  · exact .inr ⟨j, loaded, rfl, rfl⟩

theorem Local.copy (only : Local i s s') (rep : s.Copy n d) (other : n ≠ s.inum i) : s'.Copy n d := by
  rcases rep with rfl | ⟨j, loaded, rfl, rfl⟩
  · exact .inl (only.dinode n other).symm
  · have ne : j ≠ i := fun same => other (by rw [same])
    have entry := only.others j ne
    exact .inr ⟨j, (only.loaded j).2 loaded, by rw [State.inum, State.inum, entry], by rw [State.copy, State.copy, entry]⟩

/-- **What `writei` does to the bytes of the file.** -/
theorem writei_bytes (hole : HoleFree s) (ready : Ready s) (loaded : s.Loaded i) (notDev : (s.copy i).type ≠ .dev)
    (enough : s.needs i off src.length ≤ s.room) :
    yields (writei i off src) (fun r s' _ => if Rejected (s.contents i).length off src.length then r = none ∧ s' = s
      else r = some src.length ∧ Writes i off src s s') (LogFull (s.lh.length + (touched off src.length).card + 3)) s := by
  rw [length_contents]
  by_cases rejected : Rejected (s.copy i).size off src.length
  · refine yields_mono (writei_rejected notDev rejected).outcome ?_ fun _ _ _ stops => stops.elim
    rintro r s' t ⟨rfl, rfl, -⟩
    rw [if_pos rejected]
    exact ⟨rfl, rfl⟩
  · have notDev' : (s.plain.copy i).type ≠ .dev := fun dev => notDev (plain_dev.1 dev)
    have returns := writei_returns (s := s.plain) hole ⟨ready.trans, ready.marked⟩ loaded (plain_not_dir _) notDev' enough
    have stores := returns.and_wp (fun _ _ _ spent => spent.fine) (writei_spec (s := s.plain) hole loaded (plain_not_dir _) notDev')
    refine yields_mono (((blind_plain i).respects_writei.yields stores).and_returns (writei_local.kept s)) ?_
      fun _ _ _ full => full
    rintro r s' t ⟨⟨spent, outcome⟩, only⟩
    rw [if_neg (show ¬ (off > (s.plain.copy i).size ∨ 2 ^ 32 ≤ off + src.length ∨ off + src.length > MAXFILE * BSIZE) from rejected)]
      at outcome
    obtain ⟨rfl, stored⟩ := outcome
    rw [if_neg rejected]
    refine ⟨rfl, stored.wf, ⟨spent.ready.trans, spent.ready.marked⟩, only, stored.contents ?_,
      fun n d rep other => ⟨only.copy rep other, ?_⟩⟩
    · by_contra beyond
      exact rejected (.inl (Nat.not_le.1 beyond))
    · refine contents_congr (Wf.sound (s := s.plain) hole n _ (copy_plain rep)) fun k lt used => ?_
      exact stored.outside n k _ (.of_slot (d := d.plain) (copy_plain rep) lt used) other

end

/-! ## Any sequence of calls -/

/-- There are places in the log for `n` blocks, the bitmap block, the block of an inode and an indirect block. -/
def State.LogRoom (s : State) (n : Nat) : Prop := s.lh.length + n + 3 < sb.nlog - 1

instance (s : State) (n : Nat) : Decidable (s.LogRoom n) := inferInstanceAs (Decidable (_ < _))

/-- A call of `writei` or `readi` for the inode in entry `i`. -/
inductive Io
  | write (i : Fin NINODE) (off : Nat) (src : List Byte)
  | read (i : Fin NINODE) (off n : Nat)

/-- What the call returns; `none` stands for -1. -/
inductive Reply
  | wrote (n : Option Nat)
  | data (bytes : Option (List Byte))
deriving DecidableEq

namespace Io

def entry : Io → Fin NINODE
  | write i _ _ => i
  | read i _ _ => i

def exec : Io → M Reply
  | write i off src => do
    let n ← writei i off src
    pure (.wrote n)
  | read i off n => do
    let bytes ← readi i off n
    pure (.data bytes)

end Io

/-- The inode in the entry is loaded and not a device. -/
def State.Regular (s : State) (i : Fin NINODE) : Prop := s.Loaded i ∧ (s.copy i).type ≠ .dev

/-- The calls have done to the contents of the inodes what they do to lists of bytes, and nothing to other inodes. -/
structure Did (files : Fin NINODE → List Byte) (touched : Fin NINODE → Prop) (s s' : State) : Prop where
  hole : HoleFree s'
  ready : Ready s'
  loaded : ∀ j, s'.Loaded j ↔ s.Loaded j
  regular : ∀ j, s'.Regular j ↔ s.Regular j
  inum : ∀ j, s'.inum j = s.inum j
  contents : ∀ j, s.Loaded j → s'.contents j = files j
  apart : ∀ n d, s.Copy n d → (∀ j, touched j → s.inum j ≠ n) → s'.Copy n d ∧ d.contents s'.block = d.contents s.block

section
variable {s s' s'' : State} {i : Fin NINODE} {off n : Nat} {src : List Byte} {files files' : Fin NINODE → List Byte}

theorem Did.refl {touched : Fin NINODE → Prop} (hole : HoleFree s) (ready : Ready s)
    (contents : ∀ j, s.Loaded j → s.contents j = files j) : Did files touched s s :=
  ⟨hole, ready, fun _ => Iff.rfl, fun _ => Iff.rfl, fun _ => rfl, contents, fun _ _ rep _ => ⟨rep, rfl⟩⟩

theorem Did.trans {touched touched' : Fin NINODE → Prop} (first : Did files touched s s') (second : Did files' touched' s' s'') :
    Did files' (fun j => touched j ∨ touched' j) s s'' where
  hole := second.hole
  ready := second.ready
  loaded j := (second.loaded j).trans (first.loaded j)
  regular j := (second.regular j).trans (first.regular j)
  inum j := (second.inum j).trans (first.inum j)
  contents j loaded := second.contents j ((first.loaded j).2 loaded)
  apart n d rep other := by
    obtain ⟨rep', same⟩ := first.apart n d rep fun j hit => other j (.inl hit)
    obtain ⟨rep'', same'⟩ := second.apart n d rep' fun j hit => by
      rw [first.inum]
      exact other j (.inr hit)
    exact ⟨rep'', same'.trans same⟩

end

/-! A file system with one inode, which is empty. -/

def oneInode (type : FileType) : State where
  bitmap b := b < firstData
  dinode n := if n = ROOTINO then { Dinode.blank type with nlink := 1 } else .blank .free
  block _ _ := 0
  icache i := if i = 0 then ⟨ROOTINO, 1, true, true, { Dinode.blank type with nlink := 1 }⟩ else ⟨0, 0, false, false, .blank .free⟩
  inTrans := true
  lh := []

theorem oneInode_loaded {type : FileType} {i : Fin NINODE} : (oneInode type).Loaded i ↔ i = 0 := by
  simp only [State.Loaded, State.Live, oneInode]
  split <;> simp_all

theorem oneInode_holeFree {type : FileType} (used : type ≠ .free) : HoleFree (oneInode type) := by
  have loaded : ∀ i, (oneInode type).plain.Loaded i → i = 0 := fun i => oneInode_loaded.1
  have live : ∀ i, (oneInode type).plain.Live i → i = 0 := by
    intro i isLive
    by_contra other
    simp [State.Live, State.plain, Inode.plain, oneInode, other] at isLive
  have addrs : ∀ n d, (oneInode type).plain.Copy n d → (∀ k ≤ NDIRECT, d.addrs k = 0) ∧ d.size = 0 := by
    rintro n d (rfl | ⟨i, isLoaded, rfl, rfl⟩)
    · simp only [State.plain, oneInode]
      split <;> exact ⟨fun _ _ => rfl, rfl⟩
    · rw [loaded i isLoaded]
      exact ⟨fun _ _ => rfl, rfl⟩
  have nothing : ∀ n k b, ¬ (oneInode type).plain.Refers n k b := by
    rintro n k b ⟨isUsed, -, d, rep, rfl⟩
    exact isUsed (slot_blank (addrs n d rep).1 _ k)
  refine ⟨?_, ?_, ?_, ?_, ?_, ?_, ?_, ?_⟩
  · intro i j liveI liveJ _
    rw [live i liveI, live j liveJ]
  · intro i liveI
    rw [live i liveI]
    show 0 < ROOTINO ∧ ROOTINO < sb.ninodes
    decide
  · intro i isLoaded
    rw [loaded i isLoaded]
    exact ⟨rfl, rfl⟩
  · intro i isLoaded
    rw [loaded i isLoaded]
    exact fun free => used (plain_free.1 free)
  · exact fun n k b n' k' ref _ => absurd ref (nothing n k b)
  · exact fun n k b ref => absurd ref (nothing n k b)
  · exact fun n d rep => Sound.empty (addrs n d rep).1 (addrs n d rep).2 _
  · intro b lt
    simpa [State.plain, oneInode] using lt

theorem oneInode_room (type : FileType) : (oneInode type).room = 965 := by
  have free : (oneInode type).freeBlocks = Finset.Ico firstData logStart := by
    refine Finset.filter_true_of_mem fun b member => ?_
    simpa [oneInode] using (Finset.mem_Ico.1 member).1
  rw [State.room, free, Nat.card_Ico]
  rfl

end Xv6.Fs
