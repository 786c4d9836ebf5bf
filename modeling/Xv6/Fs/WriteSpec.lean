import Xv6.Fs.ContentSpec

/-!
# Specifications: the bytes of a file

`writei` on an inode that is no directory: the bytes of the request are replaced or
appended, and the other bytes, of this and of every other inode, are the ones from
before.
-/

namespace Xv6.Fs

open Xv6.Lib Xv6.Lib.Eff

/-- Byte `o` of the inode in entry `i`. -/
def State.byte (s : State) (i : Fin NINODE) (o : Nat) : Byte := s.block (s.slot i (fileSlot (o / BSIZE))) (o % BSIZE)

/-- The bytes from `off` on have been replaced by `src`. -/
structure Written (i : Fin NINODE) (off : Nat) (src : List Byte) (s s' : State) :
    Prop where
  wf : Wf s'
  steady : Steady i s s'
  mono : ∀ k, s.slot i k ≠ 0 → s'.slot i k = s.slot i k
  present : ∀ o, off ≤ o → o < off + src.length → s'.slot i (fileSlot (o / BSIZE)) ≠ 0
  inside : ∀ k < src.length, s'.byte i (off + k) = src.getD k 0
  beside : ∀ o, o / BSIZE < MAXFILE → s.slot i (fileSlot (o / BSIZE)) ≠ 0 → ¬(off ≤ o ∧ o < off + src.length) →
    s'.byte i o = s.byte i o
  refers : ∀ n k c, s.Refers n k c → s'.Refers n k c
  outside : ∀ n k c, s.Refers n k c → n ≠ s.inum i → s'.block c = s.block c

section
variable {s s1 s' s'' : State} {i : Fin NINODE} {b bn k n off : Nat}
  {src : List Byte}

theorem Written.nil (wf : Wf s) : Written i off [] s s where
  wf := wf
  steady := .refl
  mono _ _ := rfl
  present _ low high := absurd (Nat.lt_of_le_of_lt low high) (Nat.lt_irrefl _)
  inside _ lt := absurd lt (Nat.not_lt_zero _)
  beside _ _ _ _ := rfl
  refers _ _ _ ref := ref
  outside _ _ _ _ _ := rfl

theorem same_block {o : Nat} (fits : off % BSIZE + src.length ≤ BSIZE) (low : off ≤ o) (high : o < off + src.length) :
    o / BSIZE = off / BSIZE ∧ o % BSIZE = off % BSIZE + (o - off) := by
  simp only [BSIZE] at *
  omega

/-- A block behind the direct ones is there only if the indirect block is. -/
theorem indirect_ne_zero (above : NDIRECT ≤ bn) (used : s.slot i (fileSlot bn) ≠ 0) : s.slot i NDIRECT ≠ 0 := by
  have place : fileSlot bn = bn + 1 := if_neg (Nat.not_lt.2 above)
  rw [State.slot, slot_direct (Nat.le_refl _)]
  intro zero
  rw [State.slot, place, slot_above (by omega), if_pos zero] at used
  exact used rfl

/-- One block of a request. -/
theorem Mapped.written (mapped : Mapped i (off / BSIZE) s s1 b) (loaded : s.Loaded i)
    (notDir : (s.copy i).type ≠ .dir) (lt : off / BSIZE < MAXFILE)
    (fits : off % BSIZE + src.length ≤ BSIZE) :
    Written i off src s (s1.setData b (patch (s1.block b) (off % BSIZE) src)) := by
  have write := mapped.write (g := fun data => patch data (off % BSIZE) src) loaded lt fun dir => absurd dir notDir
  obtain ⟨wf2, steady2, slots2⟩ := write
  have loaded1 := mapped.grown.loaded.2 loaded
  have own : s1.Refers (s1.inum i) (fileSlot (off / BSIZE)) b := by
    have used : s1.slot i (fileSlot (off / BSIZE)) ≠ 0 := mapped.slot ▸ mapped.used
    exact mapped.slot ▸ State.Refers.of_slot loaded1.rep (fileSlot_lt lt) used
  have self : (s1.setData b (patch (s1.block b) (off % BSIZE) src)).block b = patch (s1.block b) (off % BSIZE) src :=
    Function.update_self ..
  have other {c : Nat} (ne : c ≠ b) : (s1.setData b (patch (s1.block b) (off % BSIZE) src)).block c = s1.block c :=
    Function.update_of_ne ne ..
  have mono : ∀ k, s.slot i k ≠ 0 →
      (s1.setData b (patch (s1.block b) (off % BSIZE) src)).slot i k = s.slot i k :=
    fun k used => (slots2 k).trans (mapped.mono k used)
  refine ⟨wf2, steady2, mono, ?_, ?_, ?_, ?_, ?_⟩
  · intro o low high
    rw [(same_block fits low high).1, slots2, mapped.slot]
    exact mapped.used
  · intro k inside
    obtain ⟨block, place⟩ := same_block fits (Nat.le_add_right off k) (Nat.add_lt_add_left inside off)
    rw [State.byte, block, slots2, mapped.slot, self, place, Nat.add_sub_cancel_left]
    exact patch_inside inside
  · intro o below used outside
    rcases eq_or_ne (o / BSIZE) (off / BSIZE) with block | ne
    · rw [block] at used
      obtain rfl := mapped.same used
      rw [State.byte, block, slots2, mapped.slot, self, State.byte, block, mapped.slot]
      refine patch_outside fun within => outside ?_
      simp only [BSIZE] at *
      omega
    · have ref : s.Refers (s.inum i) (fileSlot (o / BSIZE)) (s.slot i (fileSlot (o / BSIZE))) :=
        .of_slot loaded.rep (fileSlot_lt below) used
      have apart : s.slot i (fileSlot (o / BSIZE)) ≠ b := by
        intro same
        have again := mapped.grown.refers _ _ _ ref
        rw [same] at again
        exact ne (fileSlot_inj (mapped.wf.once _ _ _ _ _ again own).2)
      rw [State.byte, mono _ used, other apart, State.byte, mapped.grown.contents _ _ _ ref (fileSlot_ne _)]
  · intro n k c ref
    obtain ⟨used, lt', d, rep, is⟩ := mapped.grown.refers n k c ref
    exact ⟨used, lt', d, rep, (mapped.wf.setData_slot own (fileSlot_ne _) rep).trans is⟩
  · intro n k c ref away
    have apart : c ≠ b := by
      rintro rfl
      have := (mapped.wf.once _ _ _ _ _ (mapped.grown.refers _ _ _ ref) own).1
      exact away (this.trans mapped.grown.inum)
    rw [other apart]
    exact mapped.grown.outside n k c ref away

/-- Two requests, the second of which starts where the first ends. -/
theorem Written.append {m : Nat} (first : Written i off (src.take m) s s1)
    (second : Written i (off + m) (src.drop m) s1 s') (within : m ≤ src.length)
    (fits : off + src.length ≤ MAXFILE * BSIZE) : Written i off src s s' := by
  have took : (src.take m).length = m := List.length_take_of_le within
  have left : (src.drop m).length = src.length - m := List.length_drop
  have inFirst {o : Nat} (high : o < off + m) : o < off + (src.take m).length := took.symm ▸ high
  have inSecond {o : Nat} (high : o < off + src.length) : o < off + m + (src.drop m).length := by omega
  have mono : ∀ k, s.slot i k ≠ 0 → s'.slot i k = s.slot i k := by
    intro k used
    have same := first.mono k used
    rw [second.mono k (by rwa [same]), same]
  have below {o : Nat} (high : o < off + src.length) : o / BSIZE < MAXFILE :=
    Nat.div_lt_of_lt_mul (Nat.mul_comm MAXFILE BSIZE ▸ Nat.lt_of_lt_of_le high fits)
  refine ⟨second.wf, first.steady.trans second.steady, mono, ?_, ?_, ?_, ?_, ?_⟩
  · intro o low high
    by_cases here : o < off + m
    · have used := first.present o low (inFirst here)
      rw [second.mono _ used]
      exact used
    · exact second.present o (by omega) (inSecond high)
  · intro k inside
    by_cases here : k < m
    · have used := first.present (off + k) (by omega) (inFirst (by omega))
      rw [second.beside (off + k) (below (by omega)) used (by omega), first.inside k (by omega),
        List.getD_eq_getElem?_getD, List.getD_eq_getElem?_getD, List.getElem?_take_of_lt here]
    · have := second.inside (k - m) (by omega)
      rw [show off + m + (k - m) = off + k by omega] at this
      rw [this, List.getD_eq_getElem?_getD, List.getD_eq_getElem?_getD, List.getElem?_drop, show m + (k - m) = k by omega]
  · intro o small used outside
    have same := first.mono _ used
    rw [second.beside o small (by rwa [same]) (by omega), first.beside o small used (by omega)]
  · intro n k c ref
    exact second.refers _ _ _ (first.refers _ _ _ ref)
  · intro n k c ref away
    rw [second.outside n k c (first.refers _ _ _ ref) (first.steady.inum ▸ away), first.outside n k c ref away]

theorem writeiLoop_spec (rounds : Nat) (enough : src.length ≤ rounds) (wf : Wf s) (loaded : s.Loaded i)
    (notDir : (s.copy i).type ≠ .dir) (fits : off + src.length ≤ MAXFILE * BSIZE) :
    Ensures (writeiLoop rounds i off src) (fun _ s' _ => Written i off src s s') s := by
  induction rounds generalizing s off src with
  | zero =>
    obtain rfl : src = [] := List.eq_nil_of_length_eq_zero (by omega)
    exact wp_pure (.nil wf)
  | succ rounds ih =>
    refine wp_ite (fun empty => ?_) fun more => ?_
    · rw [empty]
      exact wp_pure (.nil wf)
    · have some_ : 0 < src.length := List.length_pos_of_ne_nil more
      have lt : off / BSIZE < MAXFILE :=
        Nat.div_lt_of_lt_mul (Nat.mul_comm MAXFILE BSIZE ▸ Nat.lt_of_lt_of_le (by omega) fits)
      generalize chunk : min src.length (BSIZE - off % BSIZE) = m
      have bounds : 0 < m ∧ m ≤ src.length ∧ off % BSIZE + m ≤ BSIZE := by
        have : off % BSIZE < BSIZE := Nat.mod_lt _ (by decide)
        omega
      have took : (src.take m).length = m := List.length_take_of_le bounds.2.1
      refine wp_then (bmap_spec wf loaded) fun b s1 t mapped => wp_update_bind (wp_then logWrite_spec ?_)
      rintro _ _ _ rfl
      have first : Written i off (src.take m) s _ := mapped.written loaded notDir lt (by omega)
      have steady := first.steady
      refine wp_mono (ih (by rw [List.length_drop]; omega) first.wf (steady.loaded.2 loaded)
        (fun dir => notDir (steady.type.symm.trans dir)) (by rw [List.length_drop]; omega)) ?_
      intro _ s' t' second
      exact first.append second bounds.2.1 fits

/-- What `writei` leaves behind when it accepts a request. -/
structure Stored (i : Fin NINODE) (off : Nat) (src : List Byte) (s s' : State) :
    Prop where
  wf : Wf s'
  size : (s'.copy i).size = max (s.copy i).size (off + src.length)
  inside : ∀ k < src.length, s'.byte i (off + k) = src.getD k 0
  beside : ∀ o < (s.copy i).size, ¬(off ≤ o ∧ o < off + src.length) → s'.byte i o = s.byte i o
  outside : ∀ n k c, s.Refers n k c → n ≠ s.inum i → s'.block c = s.block c

theorem Written.kept (written : Written i off src s s') (full : s.Full i) (wf : Wf s) (loaded : s.Loaded i) :
    ∀ o < (s.copy i).size, ¬(off ≤ o ∧ o < off + src.length) → s'.byte i o = s.byte i o :=
  fun o below outside => written.beside o (block_lt wf loaded below) (full _ (mul_BSIZE_lt below)) outside

/-- The file did not get longer. -/
theorem Written.stored (written : Written i off src s s') (full : s.Full i) (wf : Wf s) (loaded : s.Loaded i)
    (short : off + src.length ≤ (s.copy i).size) : Stored i off src s s' where
  wf := written.wf
  size := by rw [written.steady.size, Nat.max_eq_left short]
  inside := written.inside
  beside := written.kept full wf loaded
  outside := written.outside

/-- The file got longer: its size is written back. -/
theorem Written.stored_longer (written : Written i off src s s') (full : s.Full i) (wf : Wf s)
    (loaded : s.Loaded i) (notDir : (s.copy i).type ≠ .dir) (above : off ≤ (s.copy i).size)
    (fits : off + src.length ≤ MAXFILE * BSIZE) (long : (s.copy i).size < off + src.length) :
    Stored i off src s (s'.store i { s'.copy i with size := off + src.length }) := by
  have steady := written.steady
  have loaded' := steady.loaded.2 loaded
  have filled : ∀ bn, bn * BSIZE < off + src.length → s'.slot i (fileSlot bn) ≠ 0 := by
    intro bn below
    by_cases before : bn * BSIZE < (s.copy i).size
    · rw [written.mono _ (full bn before)]
      exact full bn before
    · have used := written.present (bn * BSIZE) (by omega) below
      rwa [Nat.mul_div_cancel _ (by decide)] at used
  have copy : (s'.store i { s'.copy i with size := off + src.length }).copy i = { s'.copy i with size := off + src.length } :=
    setCopy_self
  have slots : ∀ k, (s'.store i { s'.copy i with size := off + src.length }).slot i k = s'.slot i k :=
    fun _ => store_slot rfl
  have bytes : ∀ o, (s'.store i { s'.copy i with size := off + src.length }).byte i o = s'.byte i o := by
    intro o
    rw [State.byte, slots]
    rfl
  refine ⟨?_, ?_, ?_, ?_, written.outside⟩
  · exact written.wf.resize loaded' fits filled fun dir => absurd (steady.type.symm.trans dir) notDir
  · rw [copy, Nat.max_eq_right (Nat.le_of_lt long)]
  · intro k below
    rw [bytes]
    exact written.inside k below
  · intro o below outside
    rw [bytes]
    exact written.kept full wf loaded o below outside

/-- `writei` on an inode that is neither a directory nor a device. -/
theorem writei_spec (wf : Wf s) (loaded : s.Loaded i) (notDir : (s.copy i).type ≠ .dir)
    (notDev : (s.copy i).type ≠ .dev) :
    Ensures (writei i off src) (fun r s' _ =>
      if off > (s.copy i).size ∨ 2 ^ 32 ≤ off + src.length ∨ off + src.length > MAXFILE * BSIZE then
        r = none ∧ s' = s
      else r = some src.length ∧ Stored i off src s s') s := by
  have full := wf.full_of_not_dir loaded notDir
  refine wp_state_bind ?_
  rw [if_neg (show (s.icache i).copy.type ≠ .dev from notDev)]
  refine wp_ite (fun far => wp_pure ?_) fun near => wp_ite (fun long => wp_pure ?_) fun short => ?_
  · have rejected : off > (s.copy i).size ∨ 2 ^ 32 ≤ off + src.length ∨ off + src.length > MAXFILE * BSIZE :=
      far.elim .inl fun h => .inr (.inl h)
    rw [if_pos rejected]
    exact ⟨rfl, rfl⟩
  · have rejected : off > (s.copy i).size ∨ 2 ^ 32 ≤ off + src.length ∨ off + src.length > MAXFILE * BSIZE :=
      .inr (.inr long)
    rw [if_pos rejected]
    exact ⟨rfl, rfl⟩
  · have above : off ≤ (s.copy i).size := Nat.not_lt.1 fun h => near (.inl h)
    have fits : off + src.length ≤ MAXFILE * BSIZE := Nat.not_lt.1 short
    have accepted : ¬(off > (s.copy i).size ∨ 2 ^ 32 ≤ off + src.length ∨ off + src.length > MAXFILE * BSIZE) := by
      rintro (h | h | h)
      · exact near (.inl h)
      · exact near (.inr h)
      · exact short h
    simp only [if_neg accepted]
    refine wp_then (writeiLoop_spec _ (Nat.le_refl _) wf loaded notDir fits) fun _ s1 t written => ?_
    refine wp_then (Q := fun _ s' _ => Stored i off src s s') (wp_ite ?_ ?_) ?_
    · rintro ⟨_, long⟩
      refine wp_mono store_spec ?_
      rintro _ _ _ rfl
      exact written.stored_longer full wf loaded notDir above fits long
    · intro same
      refine wp_pure (written.stored full wf loaded ?_)
      by_contra long
      exact same ⟨by omega, Nat.not_le.1 long⟩
    · exact fun _ s' t' stored => wp_pure ⟨rfl, stored⟩

end

end Xv6.Fs
