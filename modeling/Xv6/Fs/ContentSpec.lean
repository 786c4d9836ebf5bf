import Xv6.Fs.BlockSpec

/-!
# Specifications: the content of inodes

What the specifications of `readi` and `writei` rest on: which blocks of an inode are in use, and what writing
data or a new size keeps.
-/

namespace Xv6.Fs

open Xv6.Lib Xv6.Lib.Eff

section
variable {s s' s'' : State} {i : Fin NINODE} {b bn k n off : Nat}

/-- All representations of an inode that is in use have its type. -/
theorem Wf.type_of_rep (wf : Wf s) (loaded : s.Loaded i) {d : Dinode} (rep : s.Copy (s.inum i) d) :
    d.type = (s.copy i).type := by
  rcases rep with rfl | ⟨j, loadedJ, same, rfl⟩
  · exact (wf.coherent i loaded).1.symm
  · rw [wf.unique j i loadedJ.1 loaded.1 same]

theorem Wf.sound_of (wf : Wf s) (loaded : s.Loaded i) : Sound s.block (s.copy i) := wf.sound _ _ loaded.rep

/-- Only directories have holes. -/
theorem Wf.full_of_not_dir (wf : Wf s) (loaded : s.Loaded i) (notDir : (s.copy i).type ≠ .dir) : s.Full i :=
  fun bn inside => ((wf.sound_of loaded).filled bn inside).resolve_right fun h => notDir h.1

theorem mul_BSIZE_lt {size : Nat} (h : off < size) : off / BSIZE * BSIZE < size :=
  Nat.lt_of_le_of_lt (Nat.div_mul_le_self off BSIZE) h

/-! ## Reading -/

/-- The block of an offset below the size of a file. -/
theorem block_lt (wf : Wf s) (loaded : s.Loaded i) (inside : off < (s.copy i).size) : off / BSIZE < MAXFILE := by
  have fits := (wf.sound_of loaded).fits
  exact Nat.div_lt_of_lt_mul (Nat.mul_comm MAXFILE BSIZE ▸ Nat.lt_of_lt_of_le inside fits)

/-! ## Writing -/

/-- Data written to the block just mapped. -/
theorem Mapped.write {g : (Nat → Byte) → Nat → Byte} (mapped : Mapped i bn s s' b) (loaded : s.Loaded i)
    (lt : bn < MAXFILE) (entries : (s.copy i).type = .dir → DirBlock (g (s'.block b))) :
    Wf (s'.setData b (g (s'.block b))) ∧ Steady i s (s'.setData b (g (s'.block b))) ∧
      ∀ k, (s'.setData b (g (s'.block b))).slot i k = s'.slot i k := by
  have loaded' := mapped.grown.loaded.2 loaded
  have ref : s'.Refers (s'.inum i) (fileSlot bn) b := by
    have used : s'.slot i (fileSlot bn) ≠ 0 := mapped.slot ▸ mapped.used
    exact mapped.slot ▸ State.Refers.of_slot loaded'.rep (fileSlot_lt lt) used
  refine ⟨mapped.wf.setData ref (fileSlot_ne bn) ?_, ?_, ?_⟩
  · intro d rep isDir
    apply entries
    rw [← mapped.grown.type, ← mapped.wf.type_of_rep loaded' rep, isDir]
  · exact mapped.grown.toSteady.trans ⟨fun _ _ => rfl, rfl, rfl⟩
  · intro k
    exact mapped.wf.setData_slot ref (fileSlot_ne bn) loaded'.rep

theorem patch_outside {data : Nat → Byte} {start : Nat} {src : List Byte} (h : ¬(start ≤ k ∧ k < start + src.length)) :
    patch data start src k = data k := if_neg h

theorem patch_inside {data : Nat → Byte} {start : Nat} {src : List Byte} (h : k < src.length) :
    patch data start src (start + k) = src.getD k 0 := by
  rw [patch, if_pos ⟨by omega, by omega⟩, Nat.add_sub_cancel_left]

/-- The inode of entry `i` with a larger size, written back. -/
theorem Wf.resize {size : Nat} (wf : Wf s) (loaded : s.Loaded i) (fits : size ≤ MAXFILE * BSIZE)
    (filled : ∀ bn, bn * BSIZE < size → s.slot i (fileSlot bn) ≠ 0)
    (whole : (s.copy i).type = .dir → DIRENT ∣ size) : Wf (s.store i { s.copy i with size := size }) := by
  refine wf.store loaded ⟨fits, fun bn inside => Or.inl (filled bn inside), whole, ?_⟩ rfl rfl
  exact (wf.sound_of loaded).named

theorem store_slot {d : Dinode} (addrs : d.addrs = (s.copy i).addrs) : (s.store i d).slot i k = s.slot i k := by
  have copy : (s.store i d).copy i = d := setCopy_self
  rw [State.slot, copy]
  change d.slot s.block k = (s.copy i).slot s.block k
  simp only [Dinode.slot, addrs]

end

end Xv6.Fs
