import Xv6.Bio.Commit

/-!
# The cache as a flat store of blocks

The abstract view of the cache is a function from blocks to contents, which a
store to a buffer's data updates at once. A valid buffer holds the contents of its
block; the disk holds the contents of every block that has no valid buffer, and of
every clean buffer whose data its owner has not modified.
-/

namespace Xv6.Bio

open Xv6.Lib
open Function (update update_of_ne update_self)

variable {P D : Type} {disksize : Nat} {s s' : State P D} {l : List BufPtr} {e : Event P D} {p q : P} {b : BufPtr}
  {f : (BitVec 32 × BitVec 32) → D} {m : BufPtr → Bool}

/-- A block: device and sector. -/
abbrev Block := BitVec 32 × BitVec 32

/-- The contents after the step: a store is a modification of the buffer's block. -/
def modified (s : State P D) (f : Block → D) : Event P D → Block → D
  | .store _ b data => update f (s.key b) data
  | _ => f

/-- Which buffers have been modified since the last `log_write` or `bwrite`. -/
def unlogged (m : BufPtr → Bool) : Event P D → BufPtr → Bool
  | .store _ b _ => update m b true
  | .pin _ b | .bwrite _ b => update m b false
  | _ => m

/-! ## The other processes -/

/-- The step leaves process `p` where it is and its buffers alone; it may wake it. -/
structure Frame (p : P) (s : State P D) (m : BufPtr → Bool) (s' : State P D) (m' : BufPtr → Bool) : Prop where
  held : s'.held p = s.held p
  call : s'.call p = s.call p ∨ ∃ dev sector b, s.call p = .asleep dev sector b ∧ s'.call p = .bget dev sector
  buf : ∀ b ∈ s.held p, s'.cache.buf b = s.cache.buf b
  mark : ∀ b ∈ s.held p, m b = false → m' b = false

/-- Two processes hold different buffers. -/
theorem Inv.apart (inv : Inv s l) (mine : b ∈ s.held p) {b' : BufPtr} (theirs : b' ∈ s.held q) (ne : q ≠ p) : b' ≠ b := by
  rintro rfl
  exact ne (inv.one q p b' theirs mine)

/-- A step of another process. -/
theorem step_frame [DecidableEq P] (inv : Inv s l) (taken : step disksize s e = some s') (other : e.proc ≠ p) :
    Frame p s m s' (unlogged m e) := by
  have mark : ∀ b ∈ s.held p, m b = false → unlogged m e b = false := by
    intro b mine clean
    cases e with
    | bread | advance | kill | brelse => exact clean
    | store q b' | pin q b' | bwrite q b' =>
      have owned : b' ∈ s.held q := by
        simp only [step] at taken
        split_ifs at taken with may
        all_goals exact may.2
      exact (update_of_ne (inv.apart owned mine (Ne.symm other)) ..).trans clean
  have away := Ne.symm other
  cases step_shape inv taken with
  | move => exact ⟨rfl, .inl (setCall_ne _ away), fun _ _ => rfl, mark⟩
  | touch b f call disk others owned =>
    exact ⟨rfl, .inl (others p away), fun b' mine => Cache.modify_buf_ne (inv.apart owned mine away) f, mark⟩
  | obtain b f dev sector free =>
    refine ⟨update_of_ne away .., .inl (update_of_ne away ..), fun b' mine => Cache.modify_buf_ne ?_ f, mark⟩
    rintro rfl
    cases free.symm.trans ((inv.busy b').2 ⟨p, mine⟩)
  | release b at_ =>
    have owned := inv.calls e.proc
    rw [at_] at owned
    have woken : (s.brelse e.proc b).call p = State.wakeup b (s.call p) := by simp [State.brelse, away]
    refine ⟨update_of_ne away .., ?_, fun b' mine => brelse_buf_ne (inv.apart owned mine away), mark⟩
    rw [woken]
    unfold State.wakeup
    split
    · rename_i dev sector b' slept
      split_ifs
      · exact .inr ⟨dev, sector, b', slept, rfl⟩
      · exact .inl slept.symm
    · exact .inl rfl

/-! ## The contents of the cache -/

/-- What the calls in progress know about the buffers of their process. -/
def CallReady (s : State P D) (m : BufPtr → Bool) (p : P) : Call → Prop
  | .panic _ => True
  | .bread _ _ b => ∀ b' ∈ s.held p, b' ≠ b → s.valid b' = true
  | .bwrite b => (∀ b' ∈ s.held p, s.valid b' = true) ∧ s.dirty b = true
  | .brelse b => (∀ b' ∈ s.held p, s.valid b' = true) ∧ m b = false
  | .idle | .bget _ _ | .scan _ _ _ | .recycle _ _ _ | .asleep _ _ _ => ∀ b' ∈ s.held p, s.valid b' = true

/-- A buffer agrees with the contents `f`, and with the disk unless it is dirty or `mark`ed as modified. -/
structure BufOk (disksize : Nat) (f : Block → D) (disk : BitVec 32 → D) (mark : Bool) (r : Buf D) : Prop where
  device : r.flags.valid = true → r.dev = 1 ∧ r.sector.toNat < disksize
  cached : r.flags.valid = true → r.data = f r.key
  clean : r.flags.valid = true → r.flags.dirty = false → mark = false → disk r.sector = r.data
  pinned : r.flags.dirty = true → r.flags.valid = true
  released : r.flags.busy = false → mark = false

/-- The cache and the disk hold the contents `f`; `m` are the buffers modified and not yet logged. -/
structure Refines (disksize : Nat) (f : Block → D) (m : BufPtr → Bool) (s : State P D) : Prop where
  bufs : ∀ b, BufOk disksize f s.disk (m b) (s.cache.buf b)
  uncached : ∀ x, (∀ b, s.valid b = true → s.key b ≠ (1, x)) → s.disk x = f (1, x)
  calls : ∀ p, CallReady s m p (s.call p)

theorem CallReady.frame {m' : BufPtr → Bool} (frame : Frame q s m s' m') (knows : CallOk s l q (s.call q))
    (ready : CallReady s m q (s.call q)) : CallReady s' m' q (s'.call q) := by
  have valid {b : BufPtr} (owned : b ∈ s'.held q) (h : b ∈ s.held q → s.valid b = true) : s'.valid b = true := by
    rw [frame.held] at owned
    rw [State.valid, frame.buf b owned]
    exact h owned
  rcases frame.call with same | ⟨dev, sector, b, slept, woke⟩
  · rw [same]
    cases at_ : s.call q with
    | panic => trivial
    | bread _ _ b =>
      rw [at_] at ready
      exact fun b' owned other => valid owned fun old => ready b' old other
    | bwrite b =>
      rw [at_] at ready knows
      refine ⟨fun b' owned => valid owned (ready.1 b'), ?_⟩
      rw [State.dirty, frame.buf b knows]
      exact ready.2
    | brelse b =>
      rw [at_] at ready knows
      exact ⟨fun b' owned => valid owned (ready.1 b'), frame.mark b knows ready.2⟩
    | idle | bget | scan | recycle | asleep =>
      rw [at_] at ready
      exact fun b' owned => valid owned (ready b')
  · rw [slept] at ready
    rw [woke]
    exact fun b' owned => valid owned (ready b')

section
variable (ref : Refines disksize f m s)
include ref

/-- While a process is idle, all its buffers are valid. -/
theorem Refines.valid_of_idle (idle : s.call p = .idle)
    (owned : b ∈ s.held p) : s.valid b = true := by
  have ready := ref.calls p
  rw [idle] at ready
  exact ready b owned

/-- No other valid buffer holds the block of a valid buffer. -/
theorem Refines.key_ne (inv : Inv s l) {b' : BufPtr}
    (valid : s.valid b = true) (ne : b' ≠ b) : s.key b' ≠ s.key b := by
  intro same
  refine ne (inv.unique b b' ?_ same.symm).symm
  rw [((ref.bufs b).device valid).1]
  decide

/-! ## Steps on one buffer -/

/-- The step changes one buffer; the contents and the disk change at its block only. -/
theorem Refines.update {f' : Block → D} {m' : BufPtr → Bool} (b : BufPtr)
    (bufs : ∀ b' ≠ b, s'.cache.buf b' = s.cache.buf b') (marks : ∀ b' ≠ b, m' b' = m b')
    (self : BufOk disksize f' s'.disk (m' b) (s'.cache.buf b))
    (others : ∀ b' ≠ b, s.valid b' = true → f' (s.key b') = f (s.key b') ∧
      s'.disk (s.cache.buf b').sector = s.disk (s.cache.buf b').sector)
    (uncached : ∀ x, (s'.valid b = true → s'.key b ≠ (1, x)) → (∀ b' ≠ b, s.valid b' = true → s.key b' ≠ (1, x)) →
      s'.disk x = f' (1, x))
    (calls : ∀ q, CallReady s' m' q (s'.call q)) : Refines disksize f' m' s' := by
  refine ⟨fun b' => ?_, fun x absent => uncached x (absent b) fun b' ne => ?_, calls⟩
  · rcases eq_or_ne b' b with rfl | ne
    · exact self
    · have old := ref.bufs b'
      rw [bufs b' ne, marks b' ne]
      refine ⟨old.device, fun valid => ?_, fun valid clean unmarked => ?_, old.pinned, old.released⟩
      · exact (old.cached valid).trans (others b' ne valid).1.symm
      · exact (others b' ne valid).2.trans (old.clean valid clean unmarked)
  · have old := absent b'
    rw [State.valid, State.key, bufs b' ne] at old
    exact old

/-- The owner of a valid buffer writes to it and perhaps to its block on the disk. -/
theorem Refines.touch (inv : Inv s l) (valid : s.valid b = true)
    {f' : Block → D} {m' : BufPtr → Bool} {r : Buf D} (cache : s'.cache = s.cache.modify b fun _ => r)
    (calls : ∀ q, CallReady s' m' q (s'.call q)) (key : r.key = s.key b) (rvalid : r.flags.valid = true)
    (rbusy : r.flags.busy = true) (data : r.data = f' (s.key b)) (others : ∀ k ≠ s.key b, f' k = f k)
    (marks : ∀ b' ≠ b, m' b' = m b') (disk : ∀ x ≠ (s.cache.buf b).sector, s'.disk x = s.disk x)
    (clean : r.flags.dirty = false → m' b = false → s'.disk (s.cache.buf b).sector = r.data) :
    Refines disksize f' m' s' := by
  obtain ⟨dev, sector⟩ := (ref.bufs b).device valid
  have here : s.key b = (1, (s.cache.buf b).sector) := Prod.ext dev rfl
  have buf_self : s'.cache.buf b = r := by rw [cache, Cache.modify_buf_self]
  have buf_ne {b' : BufPtr} (ne : b' ≠ b) : s'.cache.buf b' = s.cache.buf b' := by rw [cache, Cache.modify_buf_ne ne]
  have rdev : r.dev = (s.cache.buf b).dev := congrArg Prod.fst key
  have rsector : r.sector = (s.cache.buf b).sector := congrArg Prod.snd key
  refine ref.update b (fun _ => buf_ne) marks ?_ ?_ ?_ calls
  · rw [buf_self]
    refine ⟨fun _ => ?_, fun _ => ?_, fun _ undirty unmarked => ?_, fun _ => rvalid, fun free => ?_⟩
    · rw [rdev, rsector]
      exact ⟨dev, sector⟩
    · rw [key]
      exact data
    · rw [rsector]
      exact clean undirty unmarked
    · cases rbusy.symm.trans free
  · intro b' ne valid'
    refine ⟨others _ (ref.key_ne inv valid ne), disk _ fun same => ?_⟩
    exact ref.key_ne inv valid ne (Prod.ext (((ref.bufs b').device valid').1.trans dev.symm) same)
  · intro x absent rest
    have other : x ≠ (s.cache.buf b).sector := by
      rintro rfl
      refine absent ?_ ?_
      · rw [State.valid, buf_self]
        exact rvalid
      · rw [State.key, buf_self, key, here]
    have outside : (1, x) ≠ s.key b := fun same => other (congrArg Prod.snd (same.trans here))
    rw [disk x other, others _ outside]
    refine ref.uncached x fun b' valid' same => ?_
    rcases eq_or_ne b' b with rfl | ne
    · exact outside same.symm
    · exact rest b' ne valid' same

/-- A buffer that has just been recycled is read from the disk. -/
theorem Refines.read (inv : Inv s l) (invalid : s.valid b = false) {r : Buf D}
    (cache : s'.cache = s.cache.modify b fun _ => r) (calls : ∀ q, CallReady s' m q (s'.call q)) (disk : s'.disk = s.disk)
    (key : r.key = s.key b) (dev : (s.cache.buf b).dev = 1) (inside : (s.cache.buf b).sector.toNat < disksize)
    (rvalid : r.flags.valid = true) (rbusy : r.flags.busy = true) (data : r.data = s.disk (s.cache.buf b).sector) :
    Refines disksize f m s' := by
  have here : s.key b = (1, (s.cache.buf b).sector) := Prod.ext dev rfl
  have buf_self : s'.cache.buf b = r := by rw [cache, Cache.modify_buf_self]
  have rdev : r.dev = (s.cache.buf b).dev := congrArg Prod.fst key
  have rsector : r.sector = (s.cache.buf b).sector := congrArg Prod.snd key
  have old {b' : BufPtr} (valid' : s.valid b' = true) : b' ≠ b := by
    rintro rfl
    cases invalid.symm.trans valid'
  -- nobody else caches the block, so the disk has its contents
  have current : s.disk (s.cache.buf b).sector = f (s.key b) := by
    rw [here]
    refine ref.uncached _ fun b' valid' same => old valid' ?_
    exact (inv.unique b b' (by rw [dev]; decide) (here.trans same.symm)).symm
  refine ref.update b (fun b' ne => by rw [cache, Cache.modify_buf_ne ne]) (fun _ _ => rfl) ?_ ?_ ?_ calls
  · rw [buf_self, disk]
    refine ⟨fun _ => ?_, fun _ => ?_, fun _ _ _ => ?_, fun _ => rvalid, fun free => ?_⟩
    · rw [rdev, rsector]
      exact ⟨dev, inside⟩
    · rw [key, data]
      exact current
    · rw [rsector]
      exact data.symm
    · cases rbusy.symm.trans free
  · exact fun _ _ _ => ⟨rfl, by rw [disk]⟩
  · intro x _ rest
    rw [disk]
    exact ref.uncached x fun b' valid' => rest b' (old valid') valid'

/-- The step changes `B_BUSY` of one buffer only. -/
theorem Refines.hold (b : BufPtr) (busy : Bool) (bufs : ∀ b', s'.cache.buf b' =
      if b' = b then { s.cache.buf b with flags := { (s.cache.buf b).flags with busy := busy } } else s.cache.buf b')
    (disk : s'.disk = s.disk) (released : busy = false → m b = false) (calls : ∀ q, CallReady s' m q (s'.call q)) :
    Refines disksize f m s' := by
  have self := (bufs b).trans (if_pos rfl)
  have old := ref.bufs b
  refine ref.update b (fun b' ne => (bufs b').trans (if_neg ne)) (fun _ _ => rfl) ?_ (fun _ _ _ => ⟨rfl, by rw [disk]⟩) ?_ calls
  · rw [self, disk]
    exact ⟨old.device, old.cached, old.clean, old.pinned, released⟩
  · intro x absent rest
    rw [State.valid, State.key, self] at absent
    rw [disk]
    refine ref.uncached x fun b' valid => ?_
    rcases eq_or_ne b' b with rfl | ne
    · exact absent valid
    · exact rest b' ne valid

/-- `bget` gives a clean buffer that nobody holds another block. Its old contents are on the disk. -/
theorem Refines.recycle {r : Buf D} (free : s.busy b = false) (undirty : s.dirty b = false)
    (cache : s'.cache = s.cache.modify b fun _ => r) (disk : s'.disk = s.disk) (fresh : r.flags = { busy := true })
    (calls : ∀ q, CallReady s' m q (s'.call q)) : Refines disksize f m s' := by
  have old := ref.bufs b
  have buf_self : s'.cache.buf b = r := by rw [cache, Cache.modify_buf_self]
  refine ref.update b (fun b' ne => by rw [cache, Cache.modify_buf_ne ne]) (fun _ _ => rfl) ?_ ?_ ?_ calls
  · rw [buf_self]
    refine ⟨?_, ?_, ?_, ?_, ?_⟩ <;> simp [fresh]
  · exact fun _ _ _ => ⟨rfl, by rw [disk]⟩
  · intro x _ rest
    rw [disk]
    by_cases evicted : s.valid b = true ∧ s.key b = (1, x)
    · obtain ⟨valid, was⟩ := evicted
      have sectorOf : (s.cache.buf b).sector = x := congrArg Prod.snd was
      have onDisk := old.clean valid undirty (old.released free)
      rw [old.cached valid, show (s.cache.buf b).key = (1, x) from was, sectorOf] at onDisk
      exact onDisk
    · refine ref.uncached x fun b' valid same => ?_
      rcases eq_or_ne b' b with rfl | ne
      · exact evicted ⟨valid, same⟩
      · exact rest b' ne valid same

end

/-! ## Every step -/

/-- The buffers of a process are valid after a write to one of them. -/
theorem valids_of_write {r : Buf D} (cache : s'.cache = s.cache.modify b fun _ => r) (valid : r.flags.valid = true)
    (others : ∀ b' ∈ s.held p, b' ≠ b → s.valid b' = true) : ∀ b' ∈ s.held p, s'.valid b' = true := by
  intro b' owned
  rw [State.valid, cache]
  rcases eq_or_ne b' b with rfl | ne
  · rw [Cache.modify_buf_self]
    exact valid
  · rw [Cache.modify_buf_ne ne]
    exact others b' owned ne

variable [DecidableEq P]

/-- The process goes elsewhere. -/
theorem Refines.move (ref : Refines disksize f m s) {c : Call} {lock : Option P}
    (others : ∀ q ≠ p, CallReady { s.setCall p c with lock := lock } m q ({ s.setCall p c with lock := lock }.call q))
    (ready : CallReady s m p c) : Refines disksize f m { s.setCall p c with lock := lock } := by
  refine ⟨ref.bufs, ref.uncached, fun q => ?_⟩
  rcases eq_or_ne q p with rfl | ne
  · have at_ : (s.setCall q c).call q = c := setCall_self ..
    show CallReady _ m q ((s.setCall q c).call q)
    rw [at_]
    cases c <;> exact ready
  · exact others q ne

/-- `iderw`, at the end of `bread` when the buffer is not valid, and at the end of `bwrite`. -/
theorem Refines.iderw (ref : Refines disksize f m s) (inv : Inv s l)
    (others : ∀ q ≠ p, CallReady (s.iderw disksize p b) m q ((s.iderw disksize p b).call q))
    (valid : ∀ b' ∈ s.held p, b' ≠ b → s.valid b' = true) (at_ : s.valid b = false ∨ s.valid b = true ∧ s.dirty b = true) :
    Refines disksize f m (s.iderw disksize p b) := by
  unfold State.iderw at others ⊢
  split at others
  · rename_i r disk done
    let after : State P D := { (s.modify b fun _ => r).setCall p .idle with disk := disk }
    have calls (rvalid : r.flags.valid = true) (q : P) : CallReady after m q (after.call q) := by
      rcases eq_or_ne q p with rfl | ne
      · have idle : after.call q = .idle := setCall_self ..
        rw [idle]
        exact valids_of_write (s := s) rfl rvalid valid
      · exact others q ne
    have old := ref.bufs b
    unfold Bio.iderw at done
    split_ifs at done with busy nothing device range dirty
    · cases done
      have valid := old.pinned dirty
      show Refines disksize _ _ after
      exact ref.touch inv valid rfl (calls rfl) rfl rfl (by simpa using busy) (old.cached valid)
        (fun _ _ => rfl) (fun _ _ => rfl) (fun x ne => update_of_ne ne ..) fun _ _ => update_self ..
    · cases done
      have invalid : s.valid b = false := at_.resolve_right fun h => dirty h.2
      show Refines disksize _ _ after
      exact ref.read inv invalid rfl (calls rfl) rfl rfl (by simpa using device) (by simpa using range) rfl
        (by simpa using busy) rfl
  · exact ref.move others trivial

/-- **A step keeps the refinement**, if a buffer that is released has been logged. -/
theorem step_refines (inv : Inv s l) (ref : Refines disksize f m s) (logged : ∀ p b, e = .brelse p b → m b = false)
    (taken : step disksize s e = some s') : Refines disksize (modified s f e) (unlogged m e) s' := by
  have others : ∀ q ≠ e.proc, CallReady s' (unlogged m e) q (s'.call q) :=
    fun q ne => (ref.calls q).frame (step_frame inv taken ne.symm) (inv.calls q)
  have calls (mine : CallReady s' (unlogged m e) e.proc (s'.call e.proc)) (q : P) :
      CallReady s' (unlogged m e) q (s'.call q) := by
    rcases eq_or_ne q e.proc with rfl | ne
    · exact mine
    · exact others q ne
  have ready {p : P} {c : Call} (at_ : s.call p = c) : CallReady s m p c := at_ ▸ ref.calls p
  -- an idle process writes to one of its buffers
  have touched {p : P} {b : BufPtr} (may : s.call p = .idle ∧ b ∈ s.held p) :
      s.valid b = true ∧ s.busy b = true ∧ ∀ b' ∈ s.held p, b' ≠ b → s.valid b' = true :=
    ⟨ref.valid_of_idle may.1 may.2, (inv.busy b).2 ⟨p, may.2⟩, fun b' owned _ => ref.valid_of_idle may.1 owned⟩
  have obtained {p : P} {b : BufPtr} {g : Buf D → Buf D} {dev sector : BitVec 32} (before : ∀ b' ∈ s.held p, s.valid b' = true) :
      CallReady ((s.modify b g).obtains p dev sector b) m p (((s.modify b g).obtains p dev sector b).call p) := by
    rw [obtains_call]
    intro b' owned other
    have held : ((s.modify b g).obtains p dev sector b).held p = b :: s.held p := update_self ..
    rw [held] at owned
    show ((s.cache.modify b g).buf b').flags.valid = true
    rw [Cache.modify_buf_ne other]
    exact before b' ((List.mem_cons.1 owned).resolve_left other)
  cases e with
  | bread p dev sector =>
    simp only [step] at taken
    split_ifs at taken with idle
    cases taken
    have before := ready idle
    exact ref.move others before
  | advance p =>
    simp only [step] at taken
    split at taken
    · rename_i dev sector at_
      have before := ready at_
      split_ifs at taken with free
      cases taken
      exact ref.move others before
    · rename_i dev sector cur at_
      have before := ready at_
      rw [Option.some.injEq] at taken
      unfold State.scan at taken
      split at taken
      · subst taken
        exact ref.move others before
      · rename_i b
        split_ifs at taken with hit busy
        all_goals subst taken
        · exact ref.move others before
        · exact ref.hold b true (by simp [State.obtains, State.setCall, State.modify, Cache.modify_buf]) rfl (by simp)
            (calls (obtained before))
        · exact ref.move others before
    · rename_i dev sector cur at_
      have before := ready at_
      rw [Option.some.injEq] at taken
      unfold State.recycle at taken
      split at taken
      · subst taken
        exact ref.move others trivial
      · split_ifs at taken with clean
        all_goals subst taken
        · exact ref.recycle (by simpa [State.busy] using clean.1) (by simpa [State.dirty] using clean.2) rfl rfl rfl
            (calls (obtained before))
        · exact ref.move others before
    · rename_i dev sector b at_
      split_ifs at taken with valid
      · cases taken
        refine ref.move others fun b' owned => ?_
        rcases eq_or_ne b' b with rfl | ne
        · simpa [State.valid] using valid
        · exact ready at_ b' owned ne
      · cases taken
        exact ref.iderw inv others (ready at_) (.inl (by simpa [State.valid] using valid))
    · rename_i b at_
      cases taken
      have mine := inv.calls p
      rw [at_] at mine
      exact ref.iderw inv others (fun b' owned _ => (ready at_).1 b' owned) (.inr ⟨(ready at_).1 b mine, (ready at_).2⟩)
    · rename_i b at_
      split_ifs at taken with free
      cases taken
      have held : (s.brelse p b).held p = (s.held p).erase b := update_self ..
      have idle : (s.brelse p b).call p = .idle := by simp [State.brelse]
      refine ref.hold b false (brelse_buf s p b) rfl (fun _ => (ready at_).2) (calls ?_)
      show CallReady _ _ p ((s.brelse p b).call p)
      rw [idle]
      intro b' owned
      have old : b' ∈ s.held p := List.mem_of_mem_erase (held ▸ owned)
      rw [State.valid, brelse_buf]
      split_ifs with same
      · exact same ▸ (ready at_).1 b' old
      · exact (ready at_).1 b' old
    · cases taken
    · cases taken
    · cases taken
  | kill p =>
    simp only [step] at taken
    split at taken
    · rename_i at_
      have before := ready at_
      cases taken
      exact ref.move others before
    · cases taken
  | store p b data =>
    simp only [step] at taken
    split_ifs at taken with may
    cases taken
    obtain ⟨valid, busy, rest⟩ := touched may
    refine ref.touch inv valid rfl (calls ?_) rfl valid busy ?_ (fun k ne => update_of_ne ne ..)
      (fun b' ne => update_of_ne ne ..) (fun _ _ => rfl) fun _ unmarked => ?_
    · show CallReady _ _ p (s.call p)
      rw [may.1]
      exact valids_of_write (s := s) (b := b) rfl valid rest
    · rw [modified, update_self]
    · rw [unlogged, update_self] at unmarked
      cases unmarked
  | pin p b =>
    simp only [step] at taken
    split_ifs at taken with may
    cases taken
    obtain ⟨valid, busy, rest⟩ := touched may
    refine ref.touch inv valid rfl (calls ?_) rfl valid busy ((ref.bufs b).cached valid) (fun _ _ => rfl)
      (fun b' ne => update_of_ne ne ..) (fun _ _ => rfl) (by simp)
    show CallReady _ _ p (s.call p)
    rw [may.1]
    exact valids_of_write (s := s) (b := b) rfl valid rest
  | bwrite p b =>
    simp only [step] at taken
    split_ifs at taken with may busy
    · cases taken
      obtain ⟨valid, busy, rest⟩ := touched may
      refine ref.touch inv valid rfl (calls ?_) rfl valid busy ((ref.bufs b).cached valid) (fun _ _ => rfl)
        (fun b' ne => update_of_ne ne ..) (fun _ _ => rfl) (by simp)
      show CallReady _ _ p (State.call _ p)
      rw [setCall_self]
      refine ⟨valids_of_write (s := s) (b := b) rfl valid rest, ?_⟩
      simp [State.dirty, State.setCall, State.modify]
    · exact absurd ((inv.busy b).2 ⟨p, may.2⟩) (by simpa [State.busy] using busy)
  | brelse p b =>
    simp only [step] at taken
    split_ifs at taken with may busy
    · cases taken
      exact ref.move others ⟨ready may.1, logged p b rfl⟩
    · cases taken
      exact ref.move others trivial

end Xv6.Bio
